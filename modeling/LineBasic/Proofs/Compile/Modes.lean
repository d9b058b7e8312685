import LineBasic.Compile
import LineBasic.Proofs.Parse.Modes

/-!
A compilation that collects faults ends like one that stops at the first.
-/

namespace LineBasic

variable {source : String}

theorem result_parseSource_of_scanned {tokens : List Token} (scanned : tokenize source = .ok tokens)
    (collect : Bool) : (parseSource source collect).result = (parse tokens collect).result := by
  simp [parseSource, Report.bind, tokenizeLogged, scanned]

theorem result_parseSource_of_fault {d : Diagnostic} (fault : tokenize source = .error d)
    (collect : Bool) : (parseSource source collect).result = .error ⟨d, []⟩ := by
  simp [parseSource, Report.bind, tokenizeLogged, fault]

theorem parseSource_agree (source : String) :
    (∃ program, (parseSource source false).result = .ok program ∧
        (parseSource source true).result = .ok program) ∨
      ∃ d others, (parseSource source false).result = .error ⟨d, []⟩ ∧
        (parseSource source true).result = .error ⟨d, others⟩ := by
  cases scanned : tokenize source with
  | error d =>
    rw [result_parseSource_of_fault scanned, result_parseSource_of_fault scanned]
    exact .inr ⟨d, [], rfl, rfl⟩
  | ok tokens =>
    rw [result_parseSource_of_scanned scanned, result_parseSource_of_scanned scanned]
    exact parse_agree tokens

theorem result_compile_of_parsed {program : Program} (config : Config)
    (parsed : (parseSource source config.collect).result = .ok program) :
    (compile source config).result = (generate config program).result := by
  cases generated : (generate config program).result <;>
    simp [compile, Report.bind, parsed, generated]

theorem result_compile_of_faults {ds : Diagnostics} (config : Config)
    (faults : (parseSource source config.collect).result = .error ds) :
    (compile source config).result = .error ds := by
  simp [compile, Report.bind, faults]

theorem result_generate (config : Config) (program : Program) :
    (∃ assembly, (generate config program).result = .ok assembly) ∨
      ∃ d, (generate config program).result = .error ⟨d, []⟩ := by
  unfold generate
  dsimp only
  split
  next => exact .inl ⟨_, rfl⟩
  next d _ => exact .inr ⟨d, rfl⟩

/-- A compilation that collects faults and one that stops at the first either both give the same
assembly, or both fail, and the only fault of the one is the first of the other. -/
theorem compile_modes_agree (source : String) (target : Target) (sourceName : Option String) :
    (∃ assembly, (compile source ⟨target, false, sourceName⟩).result = .ok assembly ∧
        (compile source ⟨target, true, sourceName⟩).result = .ok assembly) ∨
      ∃ d others, (compile source ⟨target, false, sourceName⟩).result = .error ⟨d, []⟩ ∧
        (compile source ⟨target, true, sourceName⟩).result = .error ⟨d, others⟩ := by
  rcases parseSource_agree source with ⟨program, fast, full⟩ | ⟨d, others, fast, full⟩
  · rw [result_compile_of_parsed ⟨target, false, sourceName⟩ fast,
      result_compile_of_parsed ⟨target, true, sourceName⟩ full]
    have same : generate ⟨target, true, sourceName⟩ program =
        generate ⟨target, false, sourceName⟩ program := rfl
    rw [same]
    rcases result_generate ⟨target, false, sourceName⟩ program with ⟨assembly, eq⟩ | ⟨d, eq⟩
    · exact .inl ⟨assembly, eq, eq⟩
    · exact .inr ⟨d, [], eq, eq⟩
  · rw [result_compile_of_faults ⟨target, false, sourceName⟩ fast,
      result_compile_of_faults ⟨target, true, sourceName⟩ full]
    exact .inr ⟨d, others, rfl, rfl⟩

end LineBasic

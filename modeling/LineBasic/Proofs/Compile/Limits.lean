import LineBasic.Proofs.Lower.Emission
import LineBasic.Proofs.Token.Quoted

/-!
What can keep a program that was parsed from being compiled.
-/

namespace LineBasic

variable {source : String} {collect : Bool} {program : Program}

/-- The generator takes every program that was parsed, or it reports one of its four limits. -/
theorem compile_ok_or_limit (parsed : (parseSource source collect).result = .ok program)
    (generator : Generator) :
    (generator.compile program).result = .ok () ∨
    ∃ d, (generator.compile program).result = .error d ∧
      (d.fault = .emission .floatUnsupported ∧
          d.message = "float code generation is not supported" ∨
        (∃ operator, d.fault = .emission (.textOperator operator) ∧
          d.message = s!"unsupported operator {operator.describe} for string operands") ∨
        (∃ operator, d.fault = .emission (.textComparator operator) ∧
          d.message = s!"unsupported comparator {operator.describe} for string operands") ∨
        ∃ name, d.fault = .emission (.frameTooLarge name) ∧
          d.message = s!"stack frame is too large to hold {name}") := by
  have ends := @Generator.compile_ends program generator (wellFormed_of_parseSource parsed)
  cases result : (generator.compile program).result with
  | ok => exact .inl rfl
  | error d =>
    rw [result] at ends
    obtain ⟨fault, eq, limit⟩ := ends
    have message : d.message = fault.message := by
      rw [Diagnostic.message, eq]
      rfl
    refine .inr ⟨d, rfl, ?_⟩
    rw [eq, message]
    cases fault with
    | floatUnsupported => exact .inl ⟨rfl, rfl⟩
    | textOperator operator => exact .inr (.inl ⟨operator, rfl, rfl⟩)
    | textComparator operator => exact .inr (.inr (.inl ⟨operator, rfl, rfl⟩))
    | frameTooLarge name => exact .inr (.inr (.inr ⟨name, rfl, rfl⟩))
    | _ => cases limit

/-- A comparison of strings is a limit also where it stands inside a loop. -/
theorem compile_limit_in_loop :
    ∃ program d, (parseSource "10 FOR I = 1 TO 3\n20 IF \"x\" < \"y\" THEN\n30 END\n40 END"
        true).result = .ok program ∧
      (({} : Generator).compile program).result = .error d ∧
      d.message = "unsupported comparator '<' for string operands" := by
  generalize hs : "10 FOR I = 1 TO 3\n20 IF \"x\" < \"y\" THEN\n30 END\n40 END" = source
  have reported : ((parseSource source true).result.toOption.bind fun program =>
      (((({} : Generator).compile program).result.map fun _ => "").tryCatch
        fun d => .ok d.message).toOption) =
      some "unsupported comparator '<' for string operands" := by
    subst hs
    decide +kernel
  cases parsed : (parseSource source true).result with
  | error => simp [parsed, Except.toOption] at reported
  | ok program =>
    rw [parsed] at reported
    rcases compile_ok_or_limit parsed {} with ok | ⟨d, error, _⟩
    · simp only [Except.toOption, Option.bind_some, ok, Except.map] at reported
      have empty : "" = "unsupported comparator '<' for string operands" :=
        Option.some.inj reported
      simp at empty
    · simp only [Except.toOption, Option.bind_some, error, Except.map] at reported
      exact ⟨program, d, rfl, error, Option.some.inj reported⟩

end LineBasic

import LineBasic.Proofs.Lower.Variation

/-!
Using a generator again: what a run has left behind is not seen by the next one.
-/

namespace LineBasic

open List

namespace Generator

def fresh (generator : Generator) : Generator :=
  { target := generator.target, sourceName := generator.sourceName }

theorem compile_fresh (generator : Generator) (program : Program) :
    generator.fresh.compile program = generator.compile program := rfl

/-- Two runs end alike, whatever they have logged. -/
structure Outcome.Same (first second : Outcome) : Prop where
  result : second.result = first.result
  generator : second.generator = first.generator
  symbols : second.symbols = first.symbols

def variation (generator : Generator) : Variation where
  renumber := .refl Nat
  target := generator.target
  target' := generator.target
  Alike := Eq
  same _ := rfl
  label h := congrArg Instr.label (h.eq fun _ => rfl)
  jmp h := congrArg Instr.jmp (h.eq fun _ => rfl)
  jcc h := congrArg (Instr.jcc _) (h.eq fun _ => rfl)
  call _ := rfl

theorem alike_again (generator : Generator) (program : Program) {symbols : Array Variable}
    (h : Reused program.symbols symbols) :
    Emit.EndsAlike generator.variation { symbols := program.symbols } { symbols := symbols }
      ((Lower.program generator.target generator.sourceName program).run.run
        { symbols := program.symbols })
      ((Lower.program generator.target generator.sourceName
        { program with symbols := symbols }).run.run { symbols := symbols }) := by
  have children : program.root.children =
      program.root.children.map (Node.renumber generator.variation.renumber) := by
    have kept : ∀ node ∈ program.root.children, Node.renumber generator.variation.renumber node = id node :=
      fun node _ => Node.renumber_self (fun _ => rfl) node
    exact ((map_congr_left kept).trans (map_id _)).symm
  exact @Lower.alike_program generator.variation program { program with symbols := symbols }
    generator.sourceName rfl children (fun _ => forall₂_same.mpr fun _ _ => rfl) (fun _ => rfl) _ _
    ⟨rfl, rfl, h⟩

/-- Whether a run fails or not, the addresses it gives leave room for the variables. -/
theorem places_compile (generator : Generator) (program : Program) :
    Places program.symbols (generator.compile program).symbols :=
  (alike_again generator program (.refl _)).places

/-- A program is compiled again with the addresses of the first run, whether that failed or not. -/
theorem compile_again (generator : Generator) {program : Program}
    (unset : ∀ v ∈ program.symbols, v.address = none) :
    (generator.compile program).Same
      (generator.compile { program with symbols := (generator.compile program).symbols }) := by
  have reused := Reused.of_withoutAddresses unset (places_compile generator program).same
  rcases (alike_again generator program reused).same fun _ => rfl with
    ⟨result, onward⟩ | ⟨n, stale, unplaced⟩
  · have symbols := onward.level.symbols.eq_of_not_stale fun n stale =>
      (onward.fewer n stale).2 stale.1
    obtain ⟨code, code', eq, eq', alike⟩ := onward.code rfl
    have same : code = code' := forall₂_eq_eq_eq ▸ alike
    exact ⟨result, (mk.injEq ..).mpr ⟨rfl, rfl, Array.toList_inj.mp (eq'.trans (same ▸ eq.symm)),
      onward.level.top, onward.level.lastLine.trans Option.map_id'⟩, symbols⟩
  · -- what the first run has not placed is not left over by it
    exact absurd unplaced stale.2

/-- A call of a generator, for one of some programs. -/
inductive Call where
  | compile (program : Nat)
  | reset

/-- A generator and the programs that it is used for, with the addresses that their variables have
been given so far. -/
structure Usage where
  generator : Generator
  programs : List Program

namespace Usage

def call (usage : Usage) : Call → Usage
  | .compile i =>
    match usage.programs[i]? with
    | some program =>
      let outcome := usage.generator.compile program
      { generator := outcome.generator
        programs := usage.programs.set i { program with symbols := outcome.symbols } }
    | none => usage
  | .reset => { usage with generator := usage.generator.reset }

def after (usage : Usage) (calls : List Call) : Usage :=
  calls.foldl call usage

/-- Nothing but addresses has changed, and these are the ones that a run without a past gives. -/
structure Continues (first usage : Usage) : Prop where
  fresh : usage.generator.fresh = first.generator.fresh
  programs : ∀ (i : Nat) (program : Program), first.programs[i]? = some program →
    usage.programs[i]? = some program ∨
      usage.programs[i]? =
        some { program with symbols := (first.generator.compile program).symbols }

variable {first usage : Usage}

theorem Continues.same (h : Continues first usage) {i : Nat} {program left : Program}
    (unset : ∀ v ∈ program.symbols, v.address = none)
    (found : first.programs[i]? = some program) (now : usage.programs[i]? = some left) :
    (first.generator.compile program).Same (usage.generator.compile left) := by
  rw [← compile_fresh usage.generator, h.fresh, compile_fresh]
  obtain same | again := h.programs i program found
  · cases now.symm.trans same
    exact ⟨rfl, rfl, rfl⟩
  · cases now.symm.trans again
    exact compile_again first.generator unset

theorem Continues.call (unset : ∀ program ∈ first.programs, ∀ v ∈ program.symbols, v.address = none)
    (h : Continues first usage) (call : Call) : Continues first (usage.call call) := by
  cases call with
  | reset => exact ⟨h.fresh, h.programs⟩
  | compile i =>
    unfold Usage.call
    simp only
    split
    next left now =>
      refine ⟨h.fresh, fun j program found => ?_⟩
      simp only
      by_cases eq : i = j
      · subst eq
        have same := h.same (unset program (mem_of_getElem? found)) found now
        have inside : i < usage.programs.length := (List.getElem?_eq_some_iff.mp now).1
        refine .inr ?_
        rw [getElem?_set_self inside, same.symbols]
        obtain start | again := h.programs i program found
        · cases now.symm.trans start
          rfl
        · cases now.symm.trans again
          rfl
      · rw [getElem?_set_ne eq]
        exact h.programs j program found
    next => exact h

theorem Continues.after
    (unset : ∀ program ∈ first.programs, ∀ v ∈ program.symbols, v.address = none)
    (h : Continues first usage) (calls : List Call) : Continues first (usage.after calls) := by
  induction calls generalizing usage with
  | nil => exact h
  | cons call calls ih => exact ih (h.call unset call)

/-- Whatever a generator has been used for, it compiles a program as if neither of them had a past:
with the same result, the same code and the same addresses. -/
theorem compile_after (usage : Usage) (calls : List Call)
    (unset : ∀ program ∈ usage.programs, ∀ v ∈ program.symbols, v.address = none)
    {i : Nat} {program : Program} (found : usage.programs[i]? = some program) :
    ∃ left, (usage.after calls).programs[i]? = some left ∧
      left = { program with symbols := left.symbols } ∧
      (usage.generator.fresh.compile program).Same
        ((usage.after calls).generator.compile left) := by
  have start : Continues usage usage := ⟨rfl, fun _ _ found => .inl found⟩
  have h := start.after unset calls
  have same (left : Program) (now : (usage.after calls).programs[i]? = some left) :=
    h.same (unset program (mem_of_getElem? found)) found now
  obtain now | now := h.programs i program found
  · exact ⟨_, now, rfl, same _ now⟩
  · exact ⟨_, now, rfl, same _ now⟩

/-- A branch whose body declares a variable and cannot be lowered, so that a run ends inside of the
block with both variables placed. -/
def brokenBranch : Program where
  root := ⟨0, 0, .program [0], [
    ⟨1, 10, .assign, [⟨2, 10, .reference 0, []⟩, ⟨3, 10, .literal ⟨"1", .int, none⟩, []⟩]⟩,
    ⟨4, 20, .branch, [
      ⟨5, 20, .operator .less (some .int), [⟨6, 20, .reference 0, []⟩, ⟨7, 20, .reference 0, []⟩]⟩,
      ⟨8, 20, .block [1], [⟨9, 30, .assign, [⟨10, 30, .reference 1, []⟩]⟩]⟩]⟩]⟩
  size := 11
  symbols := #[⟨"X", [], 0, some .int, none⟩, ⟨"Y", [2], 8, some .int, none⟩]

/-- The same variables, read outside of the block. -/
def strayReference : Program where
  root := ⟨0, 0, .program [0], [
    ⟨1, 10, .assign, [⟨2, 10, .reference 1, []⟩, ⟨3, 10, .literal ⟨"1", .int, none⟩, []⟩]⟩]⟩
  size := 4
  symbols := #[⟨"X", [], 0, some .int, none⟩, ⟨"Y", [2], 8, some .int, none⟩]

/-- A failed run changes nothing for another program, and nothing for the same one. -/
theorem compile_after_failures :
    let usage : Usage := ⟨{}, [brokenBranch, strayReference]⟩
    let calls := [Call.compile 0, .compile 1, .reset, .compile 0, .compile 1]
    (((usage.generator.compile brokenBranch).symbols.toList.map (·.address)) =
        [some 4, some 12] ∧
      ∃ d, (usage.generator.compile brokenBranch).result = .error d) ∧
    (∃ left, (usage.after calls).programs[0]? = some left ∧
      left = { brokenBranch with symbols := left.symbols } ∧
      (usage.generator.fresh.compile brokenBranch).Same
        ((usage.after calls).generator.compile left)) ∧
    ∃ left, (usage.after calls).programs[1]? = some left ∧
      left = { strayReference with symbols := left.symbols } ∧
      (usage.generator.fresh.compile strayReference).Same
        ((usage.after calls).generator.compile left) := by
  have unset : ∀ program ∈ [brokenBranch, strayReference], ∀ v ∈ program.symbols.toList,
      v.address = none := by decide
  refine ⟨⟨by decide +kernel, _, rfl⟩, ?_, ?_⟩
  · exact compile_after _ _ (fun program mem v mem' => unset program mem v mem'.val) rfl
  · exact compile_after _ _ (fun program mem v mem' => unset program mem v mem'.val) rfl

end Usage

end Generator

end LineBasic

import LineBasic.Proofs.Lower.Variation
import Mathlib.Data.List.TakeWhile

/-!
Code for a program whose lines are renumbered.
-/

namespace LineBasic

open List

open Lower (lineTags)

variable {α β : Type} {ρ : Nat ↪ Nat}

/-- The label that stands for a label once lines are renumbered. It is another one only if it is made
of the number of a line. -/
def relabel (ρ : Nat → Nat) (name : String) : String :=
  let before := String.ofList (name.toList.takeWhile (!·.isDigit))
  let rest := name.toList.dropWhile (!·.isDigit)
  let after := String.ofList (rest.dropWhile Char.isDigit)
  match Text.natural? (rest.takeWhile Char.isDigit) with
  | some number => if (before, after) ∈ lineTags then tagged before (ρ number) after else name
  | none => name

def Instr.relabel (ρ : Nat → Nat) : Instr → Instr
  | label name => label (LineBasic.relabel ρ name)
  | jmp goal => jmp (LineBasic.relabel ρ goal)
  | jcc condition goal => jcc condition (LineBasic.relabel ρ goal)
  | instr => instr

theorem relabel_tagged {before after : String} (isTag : IsTag before after) (number : Nat) :
    relabel ρ (tagged before number after) =
      if (before, after) ∈ lineTags then tagged before (ρ number) after
      else tagged before number after := by
  obtain ⟨first, digits, last⟩ := cut_tagged isTag number
  unfold relabel
  dsimp only
  rw [first, digits, last, Text.natural?_toString, String.ofList_toList, String.ofList_toList]

theorem relabel_line {tag : String × String} (isLine : tag ∈ lineTags) (number : Nat) :
    relabel ρ (tagged tag.1 number tag.2) = tagged tag.1 (ρ number) tag.2 := by
  rw [relabel_tagged (Lower.isTag_of_mem (by simp [isLine])), if_pos isLine]

theorem relabel_other {tag : String × String} (isTag : IsTag tag.1 tag.2) (other : tag ∉ lineTags)
    (number : Nat) : relabel ρ (tagged tag.1 number tag.2) = tagged tag.1 number tag.2 := by
  rw [relabel_tagged isTag, if_neg other]

theorem relabel_plain {name : String} (plain : ∀ c ∈ name.toList, c.isDigit = false) :
    relabel ρ name = name := by
  have none : name.toList.dropWhile (!·.isDigit) = [] :=
    dropWhile_eq_nil_iff.mpr fun c mem => by simp [plain c mem]
  unfold relabel
  dsimp only
  rw [none]
  rfl

namespace Lower

theorem relabel_textLabel (i : Nat) : relabel ρ (textLabel i) = textLabel i := by
  have eq : textLabel i = tagged "LC" i "" := by
    rw [tagged, String.append_empty]
    rfl
  rw [eq]
  exact @relabel_other ρ ("LC", "") (by decide) (by decide) i

theorem relabel_header {program : Program} (h : program.WellFormed) (target : Target)
    (sourceName : Option String) :
    (header target sourceName program.strings.toList).map (Instr.relabel ρ) =
      header target sourceName program.strings.toList := by
  have kept : ∀ instr ∈ header target sourceName program.strings.toList, instr.relabel ρ = id instr := by
    intro instr mem
    unfold header at mem
    rcases mem_append.mp mem with mem | mem
    · obtain ⟨name, _, rfl⟩ := Option.mem_map.mp (Option.mem_toList.mp mem)
      rfl
    · split at mem
      next => cases mem
      next =>
        rcases mem_cons.mp mem with rfl | mem
        · rfl
        · obtain ⟨literal, inside, mem⟩ := mem_flatMap.mp mem
          obtain ⟨j, found⟩ := getElem?_of_mem inside
          have label := (h.texts j literal (by simpa using found)).label
          rw [label] at mem
          simp only [mem_cons, not_mem_nil, or_false] at mem
          rcases mem with rfl | rfl
          · exact congrArg Instr.label (relabel_textLabel j)
          · rfl
  exact (map_congr_left kept).trans (map_id _)

theorem relabel_main (target : Target) :
    relabel ρ (target.symbol "main") = target.symbol "main" :=
  relabel_plain (plain_main target)

end Lower

theorem Renames.relabel {name name' : String} (h : Renames ρ name name') :
    LineBasic.relabel ρ name = name' := by
  cases h with
  | line number mem => exact relabel_line mem number
  | @power tag id mem =>
    have other : ∀ tag ∈ Lower.powerTags, tag ∉ lineTags := by decide
    exact relabel_other (Lower.isTag_of_mem (by simp [mem])) (other tag mem) id

def Variation.lines (ρ : Nat ↪ Nat) (target : Target) : Variation where
  renumber := ρ
  target := target
  target' := target
  Alike instr instr' := instr.relabel ρ = instr'
  same {instr} h := by cases instr <;> first | rfl | cases h
  label h := congrArg Instr.label h.relabel
  jmp h := congrArg Instr.jmp h.relabel
  jcc h := congrArg (Instr.jcc _) h.relabel
  call _ := rfl

theorem Variation.codeAlike_lines {target : Target} {code code' : List Instr} :
    (lines ρ target).CodeAlike code code' ↔ code.map (Instr.relabel ρ) = code' := by
  rw [← forall₂_eq_eq_eq, forall₂_map_left_iff]
  rfl

/-- The generator fails for a program and for the renumbered one, or for neither of them; then variables
have the same addresses, and labels are renamed. -/
theorem Generator.compile_renumber (ρ : Nat ↪ Nat) {program : Program} (h : program.WellFormed)
    (generator : Generator) :
    (∃ d d', (generator.compile program).result = .error d ∧
        (generator.compile (program.renumber ρ)).result = .error d') ∨
      ((generator.compile program).result = .ok () ∧
        (generator.compile (program.renumber ρ)).result = .ok () ∧
        (generator.compile (program.renumber ρ)).symbols = (generator.compile program).symbols ∧
        (generator.compile (program.renumber ρ)).generator.code =
          (generator.compile program).generator.code.map (Instr.relabel ρ)) := by
  have ends := @Lower.alike_program (.lines ρ generator.target) program (program.renumber ρ)
    generator.sourceName rfl rfl
    (fun _ => Variation.codeAlike_lines.mpr (Lower.relabel_header h ..))
    (fun _ => congrArg Instr.label (Lower.relabel_main generator.target))
    { symbols := program.symbols } { symbols := program.symbols } ⟨rfl, rfl, .refl _⟩
  rcases ends.cases rfl with failed | ⟨ok, ok', onward⟩
  · exact .inl failed
  · refine .inr ⟨ok, ok', onward.symbols_eq rfl, Array.toList_inj.mp ?_⟩
    obtain ⟨code, code', eq, eq', alike⟩ := onward.code rfl
    rw [Array.toList_map]
    exact (eq'.trans (Variation.codeAlike_lines.mp alike).symm).trans
      (congrArg (List.map _) eq).symm

end LineBasic

import LineBasic.Lower.Frame
import LineBasic.Proofs.Machine.Image
import LineBasic.Proofs.Tree.WellFormed
import Mathlib.Data.List.Nodup

/-!
The names of labels: those made of different numbers, or for different things, differ.
-/

namespace LineBasic

open List

/-- A name with a number between two texts. -/
def tagged (before : String) (n : Nat) (after : String) : String :=
  before ++ toString n ++ after

/-- The texts around a number that can be told from the number. -/
structure IsTag (before after : String) : Prop where
  before : ∀ c ∈ before.toList, c.isDigit = false
  after : ∀ c ∈ after.toList.head?, c.isDigit = false

instance (before after : String) : Decidable (IsTag before after) :=
  decidable_of_iff (before.toList.all (fun c => !c.isDigit) ∧ after.toList.head?.all (fun c => !c.isDigit))
    ⟨fun ⟨before, after⟩ => ⟨by simpa using before, by simpa [Option.all_eq_true] using after⟩,
      fun ⟨before, after⟩ => ⟨by simpa using before, by simpa [Option.all_eq_true] using after⟩⟩

theorem cut_tagged {before after : String} (h : IsTag before after) (n : Nat) :
    (tagged before n after).toList.takeWhile (!·.isDigit) = before.toList ∧
    ((tagged before n after).toList.dropWhile (!·.isDigit)).takeWhile Char.isDigit =
      (toString n).toList ∧
    ((tagged before n after).toList.dropWhile (!·.isDigit)).dropWhile Char.isDigit =
      after.toList := by
  have chars : (tagged before n after).toList =
      before.toList ++ ((toString n).toList ++ after.toList) := by
    simp only [tagged, String.toList_append, append_assoc]
  have plain : ∀ c ∈ before.toList, (!c.isDigit) = true := by
    intro c mem
    simp [h.before c mem]
  have digits : ∀ c ∈ (toString n).toList, c.isDigit = true := fun c mem => Text.isDigit_of_mem_toString mem
  obtain ⟨d, ds, eq, first, _⟩ := Text.digits_toString n
  rw [chars, takeWhile_append_of_pos plain, dropWhile_append_of_pos plain]
  have stop : ((toString n).toList ++ after.toList).takeWhile (!·.isDigit) = [] := by
    rw [eq, cons_append, takeWhile_cons, first]
    rfl
  have stay : ((toString n).toList ++ after.toList).dropWhile (!·.isDigit) =
      (toString n).toList ++ after.toList := by
    rw [eq, cons_append, dropWhile_cons, first]
    rfl
  rw [stop, stay, append_nil, takeWhile_append_of_pos digits,
    dropWhile_append_of_pos digits]
  cases last : after.toList with
  | nil => simp
  | cons c cs =>
    have hc : c.isDigit = false := h.after c (by simp [last])
    simp [hc]

theorem tagged_inj {before before' after after' : String} {n m : Nat} (h : IsTag before after)
    (h' : IsTag before' after') (eq : tagged before n after = tagged before' m after') :
    before = before' ∧ n = m ∧ after = after' := by
  obtain ⟨first, number, last⟩ := cut_tagged h n
  obtain ⟨first', number', last'⟩ := cut_tagged h' m
  rw [eq] at first number last
  refine ⟨String.toList_inj.mp (first.symm.trans first'), ?_,
    String.toList_inj.mp (last.symm.trans last')⟩
  have digits := number.symm.trans number'
  have read := Text.natural?_toString n
  rw [digits, Text.natural?_toString] at read
  exact (Option.some.inj read).symm

namespace Lower

/-- The texts around the numbers of lines in labels. -/
def lineTags : List (String × String) :=
  [("LINE_", ""), ("FOR_", "_START"), ("FOR_", "_TEST"), ("IF_", "_ELSE"), ("IF_", "_END")]

/-- The texts around the numbers of operations in labels. -/
def powerTags : List (String × String) :=
  [("POW_", "_LOOP"), ("POW_", "_TEST")]

def tagNames (tags : List (String × String)) (numbers : List Nat) : List String :=
  numbers.flatMap fun n => tags.map fun tag => tagged tag.1 n tag.2

def programNames (main : String) (texts lines ids : List Nat) : List String :=
  tagNames [("LC", "")] texts ++ (main :: (tagNames lineTags lines ++ tagNames powerTags ids))

theorem isTag_of_mem {tag : String × String}
    (h : tag ∈ [("LC", "")] ++ lineTags ++ powerTags) : IsTag tag.1 tag.2 := by
  simp only [lineTags, powerTags, cons_append, nil_append, mem_cons,
    not_mem_nil, or_false] at h
  rcases h with rfl | rfl | rfl | rfl | rfl | rfl | rfl | rfl <;> decide

theorem nodup_tagNames {tags : List (String × String)} {numbers : List Nat}
    (isTag : ∀ tag ∈ tags, IsTag tag.1 tag.2) (tagsOnce : tags.Nodup) (once : numbers.Nodup) :
    (tagNames tags numbers).Nodup := by
  rw [tagNames, nodup_flatMap]
  constructor
  · intro n _
    refine Nodup.map_on ?_ tagsOnce
    intro tag mem other mem' eq
    obtain ⟨before, _, after⟩ := tagged_inj (isTag tag mem) (isTag other mem') eq
    exact Prod.ext before after
  · refine List.Pairwise.imp ?_ once
    intro n m ne name mem mem'
    obtain ⟨tag, inside, rfl⟩ := mem_map.mp mem
    obtain ⟨other, inside', eq⟩ := mem_map.mp mem'
    exact ne (tagged_inj (isTag other inside') (isTag tag inside) eq).2.1.symm

theorem mem_tagNames {tags : List (String × String)} {numbers : List Nat} {name : String} :
    name ∈ tagNames tags numbers ↔ ∃ n ∈ numbers, ∃ tag ∈ tags, tagged tag.1 n tag.2 = name := by
  simp [tagNames]

theorem disjoint_tagNames {tags others : List (String × String)} {numbers numbers' : List Nat}
    (isTag : ∀ tag ∈ tags, IsTag tag.1 tag.2) (isTag' : ∀ tag ∈ others, IsTag tag.1 tag.2)
    (apart : ∀ tag ∈ tags, tag ∉ others) :
    ∀ name ∈ tagNames tags numbers, ∀ other ∈ tagNames others numbers', name ≠ other := by
  rintro name mem other mem' rfl
  obtain ⟨n, _, tag, inside, rfl⟩ := mem_tagNames.mp mem
  obtain ⟨m, _, tag', inside', eq⟩ := mem_tagNames.mp mem'
  obtain ⟨before, _, after⟩ := tagged_inj (isTag' tag' inside') (isTag tag inside) eq
  exact apart tag inside (Prod.ext before after ▸ inside')

theorem not_mem_tagNames {tags : List (String × String)} {numbers : List Nat} {name : String}
    (plain : ∀ c ∈ name.toList, c.isDigit = false) : name ∉ tagNames tags numbers := by
  intro mem
  obtain ⟨n, _, tag, _, rfl⟩ := mem_tagNames.mp mem
  obtain ⟨d, ds, eq, digit, _⟩ := Text.digits_toString n
  have inside : d ∈ (tagged tag.1 n tag.2).toList := by
    simp only [tagged, String.toList_append, eq, mem_append, mem_cons, true_or, or_true]
  rw [plain d inside] at digit
  cases digit

theorem plain_main (target : Target) : ∀ c ∈ (target.symbol "main").toList, c.isDigit = false := by
  have all : (target.symbol "main").toList.all (fun c => !c.isDigit) := by cases target <;> decide
  simpa using all

theorem nodup_programNames {main : String} {texts lines ids : List Nat}
    (plain : ∀ c ∈ main.toList, c.isDigit = false) (textsOnce : texts.Nodup)
    (linesOnce : lines.Nodup) (idsOnce : ids.Nodup) : (programNames main texts lines ids).Nodup := by
  have isTag {tag : String × String} (h : tag ∈ [("LC", "")] ++ lineTags ++ powerTags) :=
    isTag_of_mem h
  have text : ∀ tag ∈ [("LC", "")], IsTag tag.1 tag.2 := fun tag mem =>
    isTag (mem_append_left _ (mem_append_left _ mem))
  have line : ∀ tag ∈ lineTags, IsTag tag.1 tag.2 := fun tag mem =>
    isTag (mem_append_left _ (mem_append_right _ mem))
  have power : ∀ tag ∈ powerTags, IsTag tag.1 tag.2 := fun tag mem =>
    isTag (mem_append_right _ mem)
  rw [programNames, nodup_append, nodup_cons, nodup_append]
  refine ⟨nodup_tagNames text (by decide) textsOnce, ⟨?_, nodup_tagNames line (by decide) linesOnce,
    nodup_tagNames power (by decide) idsOnce, disjoint_tagNames line power (by decide)⟩, ?_⟩
  · simp [not_mem_tagNames plain]
  · intro name mem other mem'
    rcases mem_cons.mp mem' with rfl | mem'
    · rintro rfl
      exact not_mem_tagNames plain mem
    · rcases mem_append.mp mem' with mem' | mem'
      · exact disjoint_tagNames text line (by decide) name mem other mem'
      · exact disjoint_tagNames text power (by decide) name mem other mem'

theorem lineLabel_eq (line : Nat) : lineLabel line = tagged "LINE_" line "" := by
  rw [tagged, String.append_empty]
  rfl

end Lower

theorem isName_tagged {before after : String} {n : Nat} (hb : before.toList.all isNameChar)
    (ha : after.toList.all isNameChar)
    (first : ∃ c cs, before.toList = c :: cs ∧ c.isDigit = false) :
    IsName (tagged before n after) where
  chars c mem := by
    simp only [tagged, String.toList_append, mem_append] at mem
    rcases mem with (mem | mem) | mem
    · exact all_eq_true.mp hb c mem
    · simp [isNameChar, Char.isAlphanum, Text.isDigit_of_mem_toString mem]
    · exact all_eq_true.mp ha c mem
  first := by
    obtain ⟨c, cs, eq, notDigit⟩ := first
    refine ⟨c, cs ++ (toString n).toList ++ after.toList, ?_, notDigit⟩
    simp only [tagged, String.toList_append, eq, cons_append]

theorem isName_lineLabel (line : Nat) : IsName (lineLabel line) := by
  rw [Lower.lineLabel_eq]
  exact isName_tagged (by decide) (by decide) ⟨'L', _, rfl, by decide⟩

theorem isName_textLabel (i : Nat) : IsName (textLabel i) := by
  have eq : textLabel i = tagged "LC" i "" := by
    rw [tagged, String.append_empty]
    rfl
  rw [eq]
  exact isName_tagged (by decide) (by decide) ⟨'L', _, rfl, by decide⟩

theorem isName_symbol (target : Target) {name : String}
    (h : name = "main" ∨ name = "printf" ∨ name = "scanf") : IsName (target.symbol name) := by
  rcases h with rfl | rfl | rfl <;> cases target
  all_goals exact ⟨all_eq_true.mp (by decide), ⟨_, _, rfl, by decide⟩⟩

end LineBasic

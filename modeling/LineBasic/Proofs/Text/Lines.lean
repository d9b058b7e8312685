import LineBasic.Text.Blank

/-!
Lines that are put together and taken apart again, and texts that trimming leaves as they are.
-/

namespace LineBasic.Text

open List

section Pieces

variable {α : Type} {p : α → Bool} {cs rest : List α}

theorem pieces_append_cons (h : ∀ c ∈ cs, p c = false) {d : α} (hd : p d) :
    pieces p (cs ++ d :: rest) = cs :: pieces p rest := by
  induction cs with
  | nil => simp [pieces, hd]
  | cons c cs ih =>
    have hc : p c = false := h c (mem_cons_self ..)
    have hcs := ih fun c mem => h c (mem_cons_of_mem _ mem)
    rw [cons_append, pieces, hcs]
    simp [hc]

/-- Whatever stands around a cut is cut on its own. -/
theorem pieces_append {d : α} (hd : p d) : pieces p (cs ++ d :: rest) = pieces p cs ++ pieces p rest := by
  induction cs with
  | nil => simp [pieces, hd]
  | cons c cs ih =>
    have length := length_pieces p cs
    rw [cons_append, pieces, pieces, ih]
    cases eq : pieces p cs with
    | nil => simp [eq] at length
    | cons w ws =>
      split
      next => rfl
      next => rfl

theorem pieces_eq_singleton (h : ∀ c ∈ cs, p c = false) : pieces p cs = [cs] := by
  induction cs with
  | nil => rfl
  | cons c cs ih =>
    have hc : p c = false := h c (mem_cons_self ..)
    have hcs := ih fun c mem => h c (mem_cons_of_mem _ mem)
    rw [pieces, hcs]
    simp [hc]

end Pieces

variable {cs : List Char}

/-- A text that stays one line when it is written and read. -/
structure IsLine (cs : List Char) : Prop where
  newline : '\n' ∉ cs
  last : ∀ c ∈ cs.getLast?, isBlank c = false

theorem IsLine.dropReturn_eq (h : IsLine cs) : dropReturn cs = cs := by
  unfold dropReturn
  split
  next eq =>
    have := h.last '\r' eq
    cases this
  next => rfl

theorem lines_flatten {ls : List (List Char)} (h : ∀ l ∈ ls, IsLine l) :
    lines (ls.map (· ++ ['\n'])).flatten = ls := by
  induction ls with
  | nil => rfl
  | cons l ls ih =>
    have hl := h l (mem_cons_self ..)
    have hls := ih fun l mem => h l (mem_cons_of_mem _ mem)
    have newline : ∀ c ∈ l, (c == '\n') = false := by
      intro c mem
      have ne : c ≠ '\n' := fun eq => hl.newline (eq ▸ mem)
      simp [ne]
    have cut : (((l :: ls).map (· ++ ['\n'])).flatten) =
        l ++ '\n' :: (ls.map (· ++ ['\n'])).flatten := by simp
    have more : ∀ cs, ∃ w ws, pieces (· == '\n') cs = w :: ws := by
      intro cs
      have length := length_pieces (· == '\n') cs
      cases eq : pieces (· == '\n') cs with
      | nil => simp [eq] at length
      | cons w ws => exact ⟨w, ws, rfl⟩
    obtain ⟨w, ws, eq⟩ := more (ls.map (· ++ ['\n'])).flatten
    rw [lines, cut, pieces_append_cons newline rfl, eq, lines.go, hl.dropReturn_eq, ← eq]
    exact congrArg (l :: ·) hls

theorem trim_eq_self (first : ∀ c ∈ cs.head?, isBlank c = false)
    (last : ∀ c ∈ cs.getLast?, isBlank c = false) : trim cs = cs := by
  have dropped {ds : List Char} (h : ∀ c ∈ ds.head?, isBlank c = false) :
      ds.dropWhile isBlank = ds := by
    cases ds with
    | nil => rfl
    | cons d ds =>
      have hd : isBlank d = false := h d rfl
      simp [hd]
  rw [trim, dropped first, dropped, reverse_reverse]
  intro c mem
  rw [head?_reverse] at mem
  exact last c mem

theorem trim_cons {c : Char} (h : isBlank c) : trim (c :: cs) = trim cs := by
  simp [trim, h]

end LineBasic.Text

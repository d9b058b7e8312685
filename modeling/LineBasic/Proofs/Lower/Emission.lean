import LineBasic.Lower.Generator
import LineBasic.Proofs.Lower.Code
import LineBasic.Proofs.Parse.Sound

/-!
Code generation emits the code of the tree, or it fails for one of its limits.
-/

namespace LineBasic

open List

namespace Emit

variable {α β : Type}

/-- Code generation fails for a limit, or it ends in a state where `post` holds. -/
def Ends (emit : Emit α) (s : Emission) (post : α → Emission → Prop) : Prop :=
  match emit.run.run s with
  | (.ok a, s') => post a s'
  | (.error d, _) => ∃ fault, d.fault = .emission fault ∧ fault.IsLimit

variable {s : Emission} {post : β → Emission → Prop}

theorem run_bind (emit : Emit α) (next : α → Emit β) (s : Emission) :
    (emit >>= next).run.run s = match emit.run.run s with
      | (.ok a, s') => (next a).run.run s'
      | (.error d, s') => (.error d, s') := by
  simp only [ExceptT.run_bind, StateT.run_bind]
  show (match emit.run.run s with | (a, s') => _) = _
  rcases emit.run.run s with ⟨_ | _, _⟩ <;> rfl

theorem ends_bind {emit : Emit α} {next : α → Emit β}
    (h : emit.Ends s fun a s' => (next a).Ends s' post) : (emit >>= next).Ends s post := by
  unfold Ends at *
  rw [run_bind]
  revert h
  rcases emit.run.run s with ⟨_ | _, _⟩ <;> exact id

theorem Ends.mono {emit : Emit β} {post' : β → Emission → Prop} (h : emit.Ends s post)
    (imp : ∀ a s', post a s' → post' a s') : emit.Ends s post' := by
  unfold Ends at *
  split at h
  next eq => exact imp _ _ h
  next => exact h

theorem Ends.bind {emit : Emit α} {next : α → Emit β} {mid : α → Emission → Prop}
    (h : emit.Ends s mid) (h' : ∀ a s', mid a s' → (next a).Ends s' post) :
    (emit >>= next).Ends s post :=
  ends_bind (h.mono h')

theorem ends_pure {b : β} (h : post b s) : (pure b : Emit β).Ends s post := h

theorem ends_get {post : Emission → Emission → Prop} (h : post s s) :
    (get : Emit Emission).Ends s post := h

theorem ends_set {s' : Emission} {post : PUnit → Emission → Prop} (h : post ⟨⟩ s') :
    (set s' : Emit PUnit).Ends s post := h

theorem ends_modify {f : Emission → Emission} {post : PUnit → Emission → Prop} (h : post ⟨⟩ (f s)) :
    (modify f : Emit PUnit).Ends s post := h

theorem ends_fail {fault : EmissionFault} (h : fault.IsLimit) :
    (fail fault : Emit β).Ends s post := ⟨fault, rfl, h⟩

theorem ends_adapt {emit : Emit β} {line : Nat} (h : emit.Ends s post) :
    Emit.Ends (ExceptT.adapt (Diagnostic.within line) emit) s post := by
  have eq : (ExceptT.adapt (Diagnostic.within line) emit : Emit β).run.run s =
      ((emit.run.run s).1.mapError (Diagnostic.within line), (emit.run.run s).2) := rfl
  unfold Ends at *
  rw [eq]
  revert h
  rcases emit.run.run s with ⟨_ | _, _⟩ <;> exact id

theorem ends_lowered {lower : Array Variable → Lowered β}
    (limited : ∀ fault, (lower s.symbols).result = .error fault → fault.IsLimit)
    (h : ∀ b, (lower s.symbols).result = .ok b →
      post b { s with code := s.code ++ (lower s.symbols).code }) :
    (lowered lower).Ends s post := by
  refine ends_bind (ends_get (ends_bind (ends_modify ?_)))
  cases result : (lower s.symbols).result with
  | ok b => exact h b result
  | error fault => exact ends_fail (limited fault result)

end Emit

namespace Lower

/-- Variables that have an address have the same one in `table`. -/
def Settled (symbols table : Array Variable) : Prop :=
  ∀ (n : Nat) (v : Variable), symbols[n]? = some v → v.address.isSome → table[n]? = some v

/-- Variables lie one below the other in the frame, under the first `top` bytes. -/
def Assigned (table : Array Variable) : Nat → List Nat → Prop
  | _, [] => True
  | top, n :: vars =>
    (∃ v size, table[n]? = some v ∧ v.size? = some size ∧ v.address = some (top + size) ∧
      top + size ≤ maxFrameSize) ∧ Assigned table (top + bytesOf table n) vars

/-- The parts of a statement that are lowered on their own can be lowered. -/
def Lowers (target : Target) (table : Array Variable) (node : Node) : Prop :=
  match node.kind, node.children with
  | .assign, _ => (assignment table node).Succeeds
  | .loop, [start, limit, step, _] =>
    (assignment table start).Succeeds ∧ (advance table start step).Succeeds ∧
      (test table limit (counterPlace table start step) (loopStart node.line)).Succeeds
  | .branch, [condition, _] => (comparison table condition (branchEnd node.line)).Succeeds
  | .branch, [condition, _, _] => (comparison table condition (branchElse node.line)).Succeeds
  | .print, _ | .println, _ => (print target table node).Succeeds
  | .read, _ => (read target table node).Succeeds
  | _, _ => True

/-- A statement is lowered, and the variables of its blocks lie below those of the blocks around
it. -/
inductive Laid (target : Target) (table : Array Variable) : Nat → Node → Prop
  | node {top : Nat} {node : Node} :
      Lowers target table node →
      (∀ child ∈ node.children, ∀ vars, child.kind = .block vars → Assigned table top vars) →
      (∀ child ∈ node.children, ∀ vars, child.kind = .block vars → ∀ statement ∈ child.children,
        Laid target table (top + frameSize table vars) statement) →
      Laid target table top node

/-- The variables in `owned` have got addresses, and nothing else has changed. -/
structure Placed (owned : List Nat) (symbols symbols' : Array Variable) : Prop where
  kept : ∀ n, n ∉ owned → symbols'[n]? = symbols[n]?
  placed : ∀ n ∈ owned, ∃ v address, symbols[n]? = some v ∧ v.address = none ∧
    symbols'[n]? = some { v with address := some address }

namespace Placed

variable {owned others visible : List Nat} {symbols symbols' symbols'' table : Array Variable}

theorem refl : Placed [] symbols symbols :=
  ⟨fun _ _ => rfl, by simp⟩

section

variable (h : Placed owned symbols symbols')

include h

theorem not_mem {n : Nat} {v : Variable}
    (found : symbols[n]? = some v) (stored : v.address.isSome) : n ∉ owned := by
  intro mem
  obtain ⟨_, _, found', none, _⟩ := h.placed n mem
  cases found.symm.trans found'
  simp [none] at stored

theorem trans (h' : Placed others symbols' symbols'') :
    Placed (owned ++ others) symbols symbols'' where
  kept n mem := by
    simp only [mem_append, not_or] at mem
    rw [h'.kept n mem.2, h.kept n mem.1]
  placed n mem := by
    by_cases first : n ∈ owned
    · obtain ⟨v, address, found, none, found'⟩ := h.placed n first
      exact ⟨v, address, found, none, by rw [h'.kept n (h'.not_mem found' rfl), found']⟩
    · obtain ⟨v, address, found, none, found'⟩ :=
        h'.placed n ((mem_append.mp mem).resolve_left first)
      exact ⟨v, address, by rw [← h.kept n first, found], none, found'⟩

theorem settled (settled : Settled symbols' table) :
    Settled symbols table :=
  fun n v found stored => settled n v (by rw [h.kept n (h.not_mem found stored), found]) stored

theorem stored (stored : Stored symbols visible) :
    Stored symbols' (owned ++ visible) := by
  intro n mem
  by_cases first : n ∈ owned
  · obtain ⟨v, address, _, _, found⟩ := h.placed n first
    exact ⟨_, address, found, rfl⟩
  · obtain ⟨v, address, found, eq⟩ := stored n ((mem_append.mp mem).resolve_left first)
    exact ⟨v, address, by rw [h.kept n first, found], eq⟩

end

end Placed

theorem Stored.agree {visible : List Nat} {symbols table : Array Variable}
    (h : Stored symbols visible) (settled : Settled symbols table) :
    Agree visible symbols table := by
  intro n mem
  obtain ⟨v, address, found, eq⟩ := h n mem
  rw [found, settled n v found (by simp [eq])]

/-- What code generation is ready to do: the variables it can see have storage, those in `owned` have
none yet, and no line in `lines` has a label yet. -/
structure Ready (visible owned lines : List Nat) (s : Emission) : Prop where
  stored : Stored s.symbols visible
  unplaced : ∀ n ∈ owned, ∃ v, s.symbols[n]? = some v ∧ v.address = none
  ownedOnce : owned.Nodup
  linesOnce : lines.Nodup
  fresh : ∀ line ∈ lines, s.lastLine ≠ some line

/-- What code generation has done: variables have got storage, lines have got labels, and code has
been emitted, which depends on the addresses that all variables get in the end. -/
structure Emitted (owned lines : List Nat) (code : Array Variable → List Instr)
    (laid : Array Variable → Prop) (s s' : Emission) : Prop where
  top : s'.top = s.top
  placed : Placed owned s.symbols s'.symbols
  lastLine : s'.lastLine = s.lastLine ∨ ∃ line ∈ lines, s'.lastLine = some line
  code : ∀ table, Settled s'.symbols table → s'.code.toList = s.code.toList ++ code table
  laid : ∀ table, Settled s'.symbols table → laid table

section Sequence

variable {visible owned others lines lines' : List Nat} {code code' : Array Variable → List Instr}
  {laid laid' : Array Variable → Prop} {s s' s'' : Emission}

theorem Ready.left (h : Ready visible (owned ++ others) (lines ++ lines') s) :
    Ready visible owned lines s where
  stored := h.stored
  unplaced n mem := h.unplaced n (mem_append_left _ mem)
  ownedOnce := (nodup_append.mp h.ownedOnce).1
  linesOnce := (nodup_append.mp h.linesOnce).1
  fresh line mem := h.fresh line (mem_append_left _ mem)

theorem Ready.right (h : Ready visible (owned ++ others) (lines ++ lines') s)
    (done : Emitted owned lines code laid s s') : Ready visible others lines' s' where
  stored n mem := done.placed.stored h.stored n (mem_append_right _ mem)
  unplaced n mem := by
    have apart : n ∉ owned := fun mem' =>
      absurd rfl ((nodup_append.mp h.ownedOnce).2.2 n mem' n mem)
    rw [done.placed.kept n apart]
    exact h.unplaced n (mem_append_right _ mem)
  ownedOnce := (nodup_append.mp h.ownedOnce).2.1
  linesOnce := (nodup_append.mp h.linesOnce).2.1
  fresh line mem eq := by
    rcases done.lastLine with same | ⟨other, mem', eq'⟩
    · exact h.fresh line (mem_append_right _ mem) (same ▸ eq)
    · cases eq.symm.trans eq'
      exact absurd rfl ((nodup_append.mp h.linesOnce).2.2 _ mem' _ mem)

theorem Ready.after (h : Ready visible owned lines s) (done : Emitted [] [] code laid s s') :
    Ready visible owned lines s' :=
  Ready.right (show Ready visible ([] ++ owned) ([] ++ lines) s from h) done

theorem Emitted.trans (h : Emitted owned lines code laid s s')
    (h' : Emitted others lines' code' laid' s' s'') :
    Emitted (owned ++ others) (lines ++ lines') (fun table => code table ++ code' table)
      (fun table => laid table ∧ laid' table) s s'' where
  top := h'.top.trans h.top
  placed := h.placed.trans h'.placed
  lastLine := by
    rcases h'.lastLine with same | ⟨line, mem, eq⟩
    · rcases h.lastLine with same' | ⟨line, mem, eq⟩
      · exact .inl (same.trans same')
      · exact .inr ⟨line, mem_append_left _ mem, same.trans eq⟩
    · exact .inr ⟨line, mem_append_right _ mem, eq⟩
  code table settled := by
    rw [h'.code table settled, h.code table (h'.placed.settled settled), append_assoc]
  laid table settled := ⟨h.laid table (h'.placed.settled settled), h'.laid table settled⟩

theorem Emitted.after (h' : Emitted owned lines code' laid' s' s'')
    (h : Emitted [] [] code laid s s') :
    Emitted owned lines (fun table => code table ++ code' table)
      (fun table => laid table ∧ laid' table) s s'' where
  top := h'.top.trans h.top
  placed := h.placed.trans h'.placed
  lastLine := (h.trans h').lastLine
  code := (h.trans h').code
  laid := (h.trans h').laid

theorem Emitted.before (h : Emitted owned lines code laid s s')
    (h' : Emitted [] [] code' laid' s' s'') :
    Emitted owned lines (fun table => code table ++ code' table)
      (fun table => laid table ∧ laid' table) s s'' where
  top := h'.top.trans h.top
  placed := append_nil owned ▸ h.placed.trans h'.placed
  lastLine := append_nil lines ▸ (h.trans h').lastLine
  code := (h.trans h').code
  laid := (h.trans h').laid

theorem Emitted.stored (h : Emitted owned lines code laid s s') (stored : Stored s.symbols visible) :
    Stored s'.symbols visible :=
  fun n mem => h.placed.stored stored n (mem_append_right _ mem)

theorem Emitted.congr (h : Emitted owned lines code laid s s')
    (same : ∀ table, Settled s'.symbols table → code table = code' table)
    (imp : ∀ table, laid table → laid' table) : Emitted owned lines code' laid' s s' where
  top := h.top
  placed := h.placed
  lastLine := h.lastLine
  code table settled := by rw [h.code table settled, same table settled]
  laid table settled := imp table (h.laid table settled)

end Sequence

section Steps

open Emit

variable {visible owned lines : List Nat} {s : Emission} {α : Type}

theorem ends_emit {instrs : List Instr} :
    (emit instrs).Ends s fun _ s' =>
      Emitted [] [] (fun _ => instrs) (fun _ => True) s s' :=
  ends_modify ⟨rfl, .refl, .inl rfl, by simp, fun _ _ => trivial⟩

theorem ends_lower {lower : Array Variable → Lowered α} (stored : Stored s.symbols visible)
    (limited : ∀ table, Stored table visible →
      ∀ fault, (lower table).result = .error fault → fault.IsLimit)
    (congr : ∀ table table', Agree visible table table' → lower table = lower table') :
    (lowered lower).Ends s fun a s' =>
      Emitted [] [] (fun table => (lower table).code) (fun table => (lower table).result = .ok a)
        s s' := by
  refine ends_lowered (limited _ stored) fun a result => ⟨rfl, .refl, .inl rfl, ?_, ?_⟩
  · intro table settled
    show (s.code ++ (lower s.symbols).code).toList = _
    rw [Array.toList_appendList, congr _ _ (Stored.agree stored settled)]
  · intro table settled
    rw [← congr _ _ (Stored.agree stored settled), result]

theorem ends_labelLine {node : Node} {last : Option Nat} (goesOn : ∀ line, last = some line →
      s.lastLine = some line)
    (fresh : (node.site [] last).starts → s.lastLine ≠ some node.line) :
    (labelLine node.line).Ends s fun _ s' =>
      Emitted [] (if (node.site [] last).starts then [node.line] else [])
        (fun _ => labelCode last node) (fun _ => True) s s' ∧ s'.lastLine = some node.line := by
  unfold labelLine labelCode
  refine ends_bind (ends_get ?_)
  by_cases starts : (node.site [] last).starts
  · rw [if_pos (fresh starts), if_pos starts, if_pos starts]
    refine ends_emit.bind fun _ s₁ h => ends_modify ⟨⟨h.top, h.placed, ?_, ?_, ?_⟩, rfl⟩
    · exact .inr ⟨node.line, mem_singleton_self _, rfl⟩
    · exact h.code
    · exact h.laid
  · have eq : last = some node.line := by
      simp only [Node.site, ne_eq, Bool.or_eq_true, decide_eq_true_eq, not_or, Decidable.not_not]
        at starts
      exact starts.2
    rw [if_neg (fun ne => ne (goesOn _ eq)), if_neg starts, if_neg starts]
    exact ends_pure ⟨⟨rfl, .refl, .inl rfl, by simp, fun _ _ => trivial⟩, goesOn _ eq⟩

theorem ends_reserve {n : Nat} {v : Variable} (found : s.symbols[n]? = some v)
    (unplaced : v.address = none) :
    (reserve n).Ends s fun _ s' => s'.code = s.code ∧ s'.lastLine = s.lastLine ∧
      ∃ size, v.size? = some size ∧ s.top + size ≤ maxFrameSize ∧ s'.top = s.top + size ∧
        Placed [n] s.symbols s'.symbols ∧
        s'.symbols[n]? = some { v with address := some (s.top + size) } := by
  unfold reserve
  refine ends_bind (ends_get ?_)
  simp only [found, Option.getD_some]
  split
  next top eq =>
    obtain ⟨size, hs, le, rfl⟩ : ∃ size, v.size? = some size ∧ s.top + size ≤ maxFrameSize ∧
        s.top + size = top := by
      rw [Option.filter_eq_some_iff, Option.map_eq_some_iff] at eq
      obtain ⟨⟨size, hs, rfl⟩, le⟩ := eq
      exact ⟨size, hs, by simpa using le, rfl⟩
    have found' : (s.symbols.modify n ({ · with address := some (s.top + size) }))[n]? =
        some { v with address := some (s.top + size) } := by
      rw [Array.getElem?_modify, if_pos rfl, found]
      rfl
    refine ends_bind (ends_set (ends_modify ⟨rfl, rfl, size, hs, le, rfl, ⟨?_, ?_⟩, found'⟩))
    · intro m hm
      rw [Array.getElem?_modify, if_neg (fun eq => hm (mem_singleton.mpr eq.symm))]
    · intro m hm
      cases mem_singleton.mp hm
      exact ⟨v, _, found, unplaced, found'⟩
  next => exact ends_fail trivial

theorem ends_reserves {vars : List Nat} (once : vars.Nodup)
    (unplaced : ∀ n ∈ vars, ∃ v, s.symbols[n]? = some v ∧ v.address = none) :
    (vars.forM reserve).Ends s fun _ s' => s'.code = s.code ∧ s'.lastLine = s.lastLine ∧
      Placed vars s.symbols s'.symbols ∧
      ∀ table, Settled s'.symbols table →
        s'.top = s.top + frameSize table vars ∧ Assigned table s.top vars := by
  induction vars generalizing s with
  | nil => exact ends_pure ⟨rfl, rfl, .refl, fun _ _ => ⟨rfl, trivial⟩⟩
  | cons n vars ih =>
    obtain ⟨v, found, none⟩ := unplaced n (mem_cons_self ..)
    obtain ⟨apart, once⟩ := nodup_cons.mp once
    refine (ends_reserve found none).bind
      fun _ s₁ ⟨code₁, line₁, size, hs, le, top₁, placed₁, found₁⟩ => ?_
    have unplaced₁ : ∀ m ∈ vars, ∃ v, s₁.symbols[m]? = some v ∧ v.address = Option.none := by
      intro m mem
      rw [placed₁.kept m fun eq => apart (mem_singleton.mp eq ▸ mem)]
      exact unplaced m (mem_cons_of_mem _ mem)
    refine (ih once unplaced₁).mono fun _ s₂ ⟨code₂, line₂, placed₂, rest⟩ =>
      ⟨code₂.trans code₁, line₂.trans line₁, placed₁.trans placed₂, fun table settled => ?_⟩
    obtain ⟨top₂, assigned⟩ := rest table settled
    have own := placed₂.settled settled n _ found₁ rfl
    have bytes : bytesOf table n = size := by
      unfold bytesOf
      rw [own]
      exact congrArg (Option.getD · 0) hs
    refine ⟨?_, ⟨_, size, own, hs, rfl, le⟩, ?_⟩
    · rw [top₂, top₁]
      simp only [frameSize, map_cons, foldr_cons, bytes]
      omega
    · rw [bytes, ← top₁]
      exact assigned

structure Entered (vars : List Nat) (size : Nat) (s s' : Emission) : Prop where
  code : s'.code = s.code
  top : s'.top = s.top + size
  lastLine : s'.lastLine = s.lastLine
  placed : Placed vars s.symbols s'.symbols
  laid : ∀ table, Settled s'.symbols table → size = frameSize table vars ∧ Assigned table s.top vars

theorem ends_enter {vars : List Nat} (ready : Ready visible (vars ++ owned) lines s) :
    (enter vars).Ends s fun size s' => Entered vars size s s' := by
  have before : Ready visible vars [] s :=
    Ready.left (show Ready visible (vars ++ owned) ([] ++ lines) s from ready)
  refine ends_bind (ends_get ((ends_reserves before.ownedOnce before.unplaced).bind
    fun _ s₁ ⟨code, lastLine, placed, laid⟩ => ends_bind (ends_get (ends_pure ?_))))
  have top := (laid s₁.symbols fun _ _ found _ => found).1
  refine ⟨code, by omega, lastLine, placed, fun table settled => ?_⟩
  obtain ⟨eq, assigned⟩ := laid table settled
  exact ⟨by omega, assigned⟩

theorem ends_record {vars : List Nat} {size : Nat} {s₀ : Emission} {event : Event}
    (h : Entered vars size s₀ s) :
    (record event).Ends s fun _ s' => Entered vars size s₀ s' :=
  ends_modify ⟨h.code, h.top, h.lastLine, h.placed, h.laid⟩

theorem Entered.ready {vars : List Nat} {size : Nat} {s' : Emission} (h : Entered vars size s s')
    (ready : Ready visible (vars ++ owned) lines s) :
    Ready (vars ++ visible) owned lines s' where
  stored := h.placed.stored ready.stored
  unplaced n mem := by
    rw [h.placed.kept n fun mem' => absurd rfl
      ((nodup_append.mp ready.ownedOnce).2.2 n mem' n mem)]
    exact ready.unplaced n (mem_append_right _ mem)
  ownedOnce := (nodup_append.mp ready.ownedOnce).2.1
  linesOnce := ready.linesOnce
  fresh := h.lastLine ▸ ready.fresh

end Steps

section Statements

open Emit
open Node (IsSimple IsStatement sitesAll sitesIn ownedAll)

variable {symbols : Array Variable} {strings : Array Literal} {visible vars scopes : List Nat}
  {last : Option Nat} {node : Node} {nodes : List Node} {target : Target} {s : Emission}

def startLines (sites : List Site) : List Nat :=
  (sites.filter Site.starts).map Site.line

theorem startLines_append (sites others : List Site) :
    startLines (sites ++ others) = startLines sites ++ startLines others := by
  simp [startLines]

/-- Code generation for statements does what it should from every state that is ready for them. -/
def Emits (target : Target) (visible scopes : List Nat) (last : Option Nat) (nodes : List Node)
    (emit : Emit Unit) : Prop :=
  ∀ s, Ready visible (ownedAll nodes) (startLines (sitesAll scopes last nodes)) s →
    (∀ line, last = some line → s.lastLine = some line) →
    emit.Ends s fun _ s' =>
      Emitted (ownedAll nodes) (startLines (sitesAll scopes last nodes))
        (fun table => statementsCode target table last nodes)
        (fun table => ∀ node ∈ nodes, Laid target table s.top node) s s' ∧
      ∀ line, Node.lastLineAll last nodes = some line → s'.lastLine = some line

/-- Code generation for one statement does what it should. -/
abbrev EmitsOne (target : Target) (visible scopes : List Nat) (last : Option Nat) (node : Node) : Prop :=
  Emits target visible scopes last [node] (statement target node)

theorem emits_nil : Emits target visible scopes last [] (pure ()) := by
  intro s ready goesOn
  refine ends_pure ⟨⟨rfl, ?_, .inl rfl, ?_, ?_⟩, goesOn⟩
  · rw [Node.ownedAll_nil]
    exact .refl
  · simp [statementsCode]
  · simp

theorem emits_cons {first rest : Emit Unit} (h : Emits target visible scopes last [node] first)
    (h' : Emits target visible scopes node.lastLine nodes rest) :
    Emits target visible scopes last (node :: nodes) (do first; rest) := by
  have owned : ownedAll (node :: nodes) = ownedAll [node] ++ ownedAll nodes := by simp
  have lines : startLines (sitesAll scopes last (node :: nodes)) =
      startLines (sitesAll scopes last [node]) ++
        startLines (sitesAll scopes node.lastLine nodes) := by
    simp [startLines_append]
  intro s ready goesOn
  rw [owned, lines] at ready ⊢
  refine (h s ready.left goesOn).bind fun _ s₁ ⟨done₁, next₁⟩ => ?_
  refine (h' s₁ (ready.right done₁) next₁).mono fun _ s₂ ⟨done₂, next₂⟩ =>
    ⟨(done₁.trans done₂).congr ?_ ?_, ?_⟩
  · simp [statementsCode]
  · rintro table ⟨first, rest⟩ other mem
    rcases mem_cons.mp mem with rfl | mem
    · exact first _ (mem_singleton_self _)
    · rw [← done₁.top]
      exact rest other mem
  · intro line eq
    cases nodes <;> exact next₂ line eq

theorem emits_statements
    (h : ∀ node ∈ nodes, ∀ last, EmitsOne target visible scopes last node) :
    Emits target visible scopes last nodes (statements target nodes) := by
  induction nodes generalizing last with
  | nil =>
    rw [statements]
    exact emits_nil
  | cons node nodes ih =>
    rw [statements]
    exact emits_cons (h node (mem_cons_self ..) last)
      (ih fun other mem => h other (mem_cons_of_mem _ mem))

/-- The variables of a block lie below `top` bytes, and those of the blocks in it below them. -/
def BlockLaid (target : Target) (table : Array Variable) (top : Nat) (vars : List Nat)
    (nodes : List Node) : Prop :=
  Assigned table top vars ∧ ∀ node ∈ nodes, Laid target table (top + frameSize table vars) node

theorem ends_block {id line : Nat}
    (h : Emits target (vars ++ visible) (id :: scopes) none nodes (statements target nodes))
    (ready : Ready visible (vars ++ ownedAll nodes)
      (startLines (sitesAll (id :: scopes) none nodes)) s) :
    (block target ⟨id, line, .block vars, nodes⟩).Ends s fun _ s' =>
      Emitted (vars ++ ownedAll nodes) (startLines (sitesAll (id :: scopes) none nodes))
        (fun table => blockCode target table ⟨id, line, .block vars, nodes⟩)
        (fun table => BlockLaid target table s.top vars nodes) s s' := by
  rw [block]
  refine (ends_enter ready).bind fun size s₁ entered => ?_
  refine (ends_record entered).bind fun _ s₁ entered => ?_
  refine ends_emit.bind fun _ s₂ done₂ => ?_
  have inner := (entered.ready ready).after done₂
  refine Ends.bind (h s₂ inner (by simp)) fun _ s₃ ⟨done₃, _⟩ => ?_
  refine ends_emit.bind fun _ s₄ done₄ => ends_modify ?_
  have done := (done₂.trans done₃).trans done₄
  rw [append_nil, append_nil, nil_append, nil_append] at done
  have top := done₂.top.trans entered.top
  refine ⟨?_, entered.placed.trans done.placed, ?_, fun table settled => ?_, fun table settled => ?_⟩
  · show s₄.top - size = s.top
    rw [done.top, entered.top]
    omega
  · rw [← entered.lastLine]
    exact done.lastLine
  · rw [done.code table settled, entered.code, blockCode_block,
      ← (entered.laid table (done.placed.settled settled)).1]
  · obtain ⟨eq, assigned⟩ := entered.laid table (done.placed.settled settled)
    refine ⟨assigned, ?_⟩
    rw [← eq, ← top]
    exact (done.laid table settled).1.2

theorem emits_of_body {body : Emit Unit} {code : Array Variable → List Instr}
    (emitEq : statement target node =
      (do labelLine node.line; ExceptT.adapt (Diagnostic.within node.line) body))
    (codeEq : ∀ table, statementCode target table last node = labelCode last node ++ code table)
    (simple : node.kind.form = .simple → Node.sitesBelow scopes node.children = [])
    (h : ∀ s, Ready visible node.owned (startLines (Node.sitesBelow scopes node.children)) s →
      body.Ends s fun _ s' => Emitted node.owned
        (startLines (Node.sitesBelow scopes node.children)) code
        (fun table => Laid target table s.top node) s s') :
    EmitsOne target visible scopes last node := by
  have owned : ownedAll [node] = [] ++ node.owned := by simp
  have lines : startLines (sitesAll scopes last [node]) =
      (if (node.site [] last).starts then [node.line] else []) ++
        startLines (Node.sitesBelow scopes node.children) := by
    rw [Node.sitesAll_cons, Node.sitesAll_nil, append_nil, Node.sites_eq, startLines,
      filter_cons, startLines]
    have same : (node.site scopes last).starts = (node.site [] last).starts := rfl
    rw [same]
    split <;> rfl
  intro s ready goesOn
  rw [owned, lines] at ready ⊢
  rw [emitEq]
  refine (ends_labelLine goesOn fun starts => ready.fresh _ ?_).bind
    fun _ s₁ ⟨done₁, line₁⟩ => ends_adapt ((h s₁ (ready.right done₁)).mono fun _ s₂ done₂ =>
      ⟨(done₁.trans done₂).congr ?_ ?_, ?_⟩)
  · rw [if_pos starts]
    exact mem_append_left _ (mem_singleton_self _)
  · intro table _
    rw [statementsCode, statementsCode, append_nil, codeEq]
  · rintro table ⟨_, laid⟩ other mem
    cases mem_singleton.mp mem
    exact done₁.top ▸ laid
  · intro line eq
    have eq : node.lastLine = some line := eq
    unfold Node.lastLine at eq
    split at eq
    next isSimple =>
      cases eq
      rcases done₂.lastLine with same | ⟨_, mem, _⟩
      · exact same.trans line₁
      · rw [simple isSimple] at mem
        cases mem
    next => cases eq

theorem laid_of_plain {table : Array Variable} {top : Nat}
    (h : ∀ child ∈ node.children, child.IsPlain) (lowers : Lowers target table node) :
    Laid target table top node :=
  .node lowers (fun child mem vars eq => absurd eq ((h child mem).notBlock vars))
    fun child mem vars eq => absurd eq ((h child mem).notBlock vars)

theorem emits_simple_of_body (h : IsSimple symbols strings visible node) {body : Emit Unit}
    (emitEq : statement target node =
      (do labelLine node.line; ExceptT.adapt (Diagnostic.within node.line) body))
    (done : ∀ s, Stored s.symbols visible → body.Ends s fun _ s' =>
      Emitted [] [] (fun table => simpleCode target table node)
        (fun table => Lowers target table node) s s') :
    EmitsOne target visible scopes last node := by
  obtain ⟨form, _, plain⟩ := h.isPlain
  have noSites : Node.sitesBelow scopes node.children = [] := Node.sitesBelow_eq_nil plain
  refine emits_of_body emitEq (fun _ => statementCode_simple form) (fun _ => noSites)
    fun s ready => ?_
  rw [noSites, h.owned_eq]
  exact (done s ready.stored).mono fun _ s' done => done.congr (fun _ _ => rfl) fun _ lowers =>
    laid_of_plain plain lowers

theorem emits_simple (h : IsSimple symbols strings visible node) :
    EmitsOne target visible scopes last node := by
  have isSimple := h
  cases h with
  | assign isTarget isValue =>
    exact emits_simple_of_body isSimple (by rw [statement]) fun s stored =>
      (ends_lower stored (fun _ => (made_assignment isTarget isValue).limited)
        fun _ _ agree => assignment_congr agree isTarget isValue).mono fun _ _ done =>
          done.congr (fun _ _ => rfl) fun _ result => ⟨_, result⟩
  | goto => exact emits_simple_of_body isSimple (by rw [statement]) fun s stored =>
      ends_emit
  | print isFormat isArgument =>
    exact emits_simple_of_body isSimple (by rw [statement]) fun s stored =>
      (ends_lower stored (fun _ => (made_print isFormat isArgument).limited)
        fun _ _ agree => print_congr agree isArgument).mono fun _ _ done =>
          done.congr (fun _ _ => rfl) fun _ result => ⟨_, result⟩
  | println isFormat isArgument =>
    have isArgument := fun node mem => (isArgument node (Option.mem_toList.mp mem)).1
    exact emits_simple_of_body isSimple (by rw [statement]) fun s stored =>
      (ends_lower stored (fun _ => (made_print isFormat isArgument).limited)
        fun _ _ agree => print_congr agree isArgument).mono fun _ _ done =>
          done.congr (fun _ _ => rfl) fun _ result => ⟨_, result⟩
  | read isFormat isTarget =>
    exact emits_simple_of_body isSimple (by rw [statement]) fun s stored =>
      (ends_lower stored (fun _ => (made_read isFormat isTarget).limited)
        fun _ _ agree => read_congr agree isTarget).mono fun _ _ done =>
          done.congr (fun _ _ => rfl) fun _ result => ⟨_, result⟩

theorem laid_append {table : Array Variable} {top id line : Nat} {kind : NodeKind}
    {parts blocks : List Node} (plain : ∀ child ∈ parts, child.IsPlain)
    (lowers : Lowers target table ⟨id, line, kind, parts ++ blocks⟩)
    (laid : ∀ child ∈ blocks, ∀ vars, child.kind = .block vars →
      BlockLaid target table top vars child.children) :
    Laid target table top ⟨id, line, kind, parts ++ blocks⟩ := by
  refine .node lowers (fun child mem vars eq => ?_) fun child mem vars eq => ?_
  · rcases mem_append.mp mem with mem | mem
    · exact absurd eq ((plain child mem).notBlock vars)
    · exact (laid child mem vars eq).1
  · rcases mem_append.mp mem with mem | mem
    · exact absurd eq ((plain child mem).notBlock vars)
    · exact (laid child mem vars eq).2

section Nested

variable {id line innerId innerLine : Nat}
  (h : Emits target (vars ++ visible) (innerId :: scopes) none nodes (statements target nodes))

include h

theorem emits_loop {start limit step : Node} (isStart : start.IsStart symbols strings visible)
    (isLimit : limit.IsExpression symbols strings visible)
    (isStep : step.IsExpression symbols strings visible) :
    EmitsOne target visible scopes last ⟨id, line, .loop, [start, limit, step,
      ⟨innerId, innerLine, .block vars, nodes⟩]⟩ := by
  have plain : ∀ child ∈ [start, limit, step], child.IsPlain := by
    simp [isStart.isPlain, isLimit.isPlain, isStep.isPlain]
  have owned : Node.owned ⟨id, line, .loop, [start, limit, step,
      ⟨innerId, innerLine, .block vars, nodes⟩]⟩ = vars ++ ownedAll nodes := by
    simp [Node.owned_mk, isStart.isPlain.owned, isLimit.isPlain.owned, isStep.isPlain.owned,
      NodeKind.vars?]
  have sites : Node.sitesBelow scopes [start, limit, step,
      ⟨innerId, innerLine, .block vars, nodes⟩] = sitesAll (innerId :: scopes) none nodes := by
    simp [isStart.isPlain.sitesIn, isLimit.isPlain.sitesIn, isStep.isPlain.sitesIn,
      Node.sitesIn_block]
  refine emits_of_body (by rw [statement]) (fun table => by rw [statementCode])
    (by simp [NodeKind.form]) fun s ready => ?_
  rw [owned, sites] at ready ⊢
  refine (ends_lower ready.stored (fun _ => (made_start isStart).limited)
    fun _ _ agree => start_congr agree isStart).bind fun _ s₁ done₁ => ?_
  refine ends_emit.bind fun _ s₂ done₂ => ?_
  have ready₂ := (ready.after done₁).after done₂
  refine (ends_block h ready₂).bind fun _ s₃ done₃ => ?_
  have stored₃ := done₃.stored ready₂.stored
  refine (ends_lower stored₃ (fun _ => (made_advance isStart isStep).limited)
    fun _ _ agree => advance_congr agree isStart isStep).bind fun place s₄ done₄ => ?_
  refine ends_emit.bind fun _ s₅ done₅ => ?_
  have stored₅ := done₅.stored (done₄.stored stored₃)
  refine (ends_lower stored₅ (fun _ stored _ => limited_test isLimit stored) fun _ _ agree =>
    test_congr agree isLimit _ _).mono fun _ s₆ done₆ => ?_
  have counter {table : Array Variable} (result : (advance table start step).result = .ok place) :
      counterPlace table start step = place := by
    unfold counterPlace
    rw [result]
    rfl
  refine ((((done₃.after (done₂.after done₁)).before done₄).before done₅).before done₆).congr
    (fun table settled => ?_) ?_
  · have result := done₄.laid table (done₅.placed.settled (done₆.placed.settled settled))
    rw [counter result]
    rfl
  · rintro table ⟨⟨⟨⟨⟨started, -⟩, laid⟩, advanced⟩, -⟩, tested⟩
    rw [done₂.top, done₁.top] at laid
    have lowers : Lowers target table ⟨id, line, .loop, [start, limit, step] ++
        [⟨innerId, innerLine, .block vars, nodes⟩]⟩ :=
      ⟨⟨_, started⟩, ⟨_, advanced⟩, ⟨_, by rw [counter advanced]; exact tested⟩⟩
    exact laid_append plain lowers (by simpa using laid)

variable {condition : Node} (isCondition : condition.IsComparison symbols strings visible)

include isCondition

theorem emits_branch :
    EmitsOne target visible scopes last ⟨id, line, .branch, [condition,
      ⟨innerId, innerLine, .block vars, nodes⟩]⟩ := by
  have owned : Node.owned ⟨id, line, .branch, [condition, ⟨innerId, innerLine, .block vars, nodes⟩]⟩ =
      vars ++ ownedAll nodes := by
    simp [Node.owned_mk, isCondition.isPlain.owned, NodeKind.vars?]
  have sites : Node.sitesBelow scopes [condition, ⟨innerId, innerLine, .block vars, nodes⟩] =
      sitesAll (innerId :: scopes) none nodes := by
    simp [isCondition.isPlain.sitesIn, Node.sitesIn_block]
  refine emits_of_body (by rw [statement]) (fun table => by rw [statementCode])
    (by simp [NodeKind.form]) fun s ready => ?_
  rw [owned, sites] at ready ⊢
  refine (ends_lower ready.stored (fun _ =>
    (made_comparison isCondition (isName_branchEnd line)).limited)
    fun _ _ agree => comparison_congr agree isCondition _).bind fun _ s₁ done₁ => ?_
  refine (ends_block h (ready.after done₁)).bind fun _ s₂ done₂ => ?_
  refine ends_emit.mono fun _ s₃ done₃ => ((done₂.after done₁).before done₃).congr
    (fun _ _ => rfl) ?_
  rintro table ⟨⟨compared, laid⟩, -⟩
  rw [done₁.top] at laid
  have lowers : Lowers target table ⟨id, line, .branch, [condition] ++
      [⟨innerId, innerLine, .block vars, nodes⟩]⟩ := ⟨_, compared⟩
  exact laid_append (by simp [isCondition.isPlain]) lowers (by simpa using laid)

theorem emits_branchElse {elseId elseLine : Nat} {others : List Nat} {alternative : List Node}
    (h' : Emits target (others ++ visible) (elseId :: scopes) none alternative
      (statements target alternative)) :
    EmitsOne target visible scopes last ⟨id, line, .branch, [condition,
      ⟨innerId, innerLine, .block vars, nodes⟩, ⟨elseId, elseLine, .block others, alternative⟩]⟩ := by
  have owned : Node.owned ⟨id, line, .branch, [condition, ⟨innerId, innerLine, .block vars, nodes⟩,
      ⟨elseId, elseLine, .block others, alternative⟩]⟩ =
      vars ++ ownedAll nodes ++ (others ++ ownedAll alternative) := by
    simp [Node.owned_mk, isCondition.isPlain.owned, NodeKind.vars?]
  have sites : Node.sitesBelow scopes [condition, ⟨innerId, innerLine, .block vars, nodes⟩,
      ⟨elseId, elseLine, .block others, alternative⟩] =
      sitesAll (innerId :: scopes) none nodes ++ sitesAll (elseId :: scopes) none alternative := by
    simp [isCondition.isPlain.sitesIn, Node.sitesIn_block]
  refine emits_of_body (by rw [statement]) (fun table => by rw [statementCode])
    (by simp [NodeKind.form]) fun s ready => ?_
  rw [owned, sites, startLines_append] at ready ⊢
  refine (ends_lower ready.stored (fun _ =>
    (made_comparison isCondition (isName_branchElse line)).limited)
    fun _ _ agree => comparison_congr agree isCondition _).bind fun _ s₁ done₁ => ?_
  have ready₁ := ready.after done₁
  refine (ends_block h ready₁.left).bind fun _ s₂ done₂ => ?_
  refine ends_emit.bind fun _ s₃ done₃ => ?_
  refine (ends_block h' ((ready₁.right done₂).after done₃)).bind fun _ s₄ done₄ => ?_
  refine ends_emit.mono fun _ s₅ done₅ =>
    ((((done₂.after done₁).before done₃).trans done₄).before done₅).congr
      (fun _ _ => rfl) ?_
  rintro table ⟨⟨⟨⟨compared, laid⟩, -⟩, laid'⟩, -⟩
  rw [done₁.top] at laid
  rw [done₃.top, done₂.top, done₁.top] at laid'
  have lowers : Lowers target table ⟨id, line, .branch, [condition] ++
      [⟨innerId, innerLine, .block vars, nodes⟩, ⟨elseId, elseLine, .block others, alternative⟩]⟩ :=
    ⟨_, compared⟩
  exact laid_append (by simp [isCondition.isPlain]) lowers (by simpa using ⟨laid, laid'⟩)

end Nested

theorem emits_statement (h : IsStatement symbols strings visible node) (scopes : List Nat)
    (last : Option Nat) : EmitsOne target visible scopes last node := by
  induction h generalizing scopes last with
  | simple h => exact emits_simple h
  | loop isStart isLimit isStep _ ih =>
    exact emits_loop (emits_statements fun node mem => ih node mem _) isStart isLimit isStep
  | branch isCondition _ ih =>
    exact emits_branch (emits_statements fun node mem => ih node mem _) isCondition
  | branchElse isCondition _ _ ih ih' =>
    exact emits_branchElse (emits_statements fun node mem => ih node mem _) isCondition
      (emits_statements fun node mem => ih' node mem _)

end Statements

section Whole

open Emit

variable {program : Program} {target : Target} {sourceName : Option String}

/-- What the code of a program and the addresses of its variables have in common. -/
structure Generated (target : Target) (sourceName : Option String) (program : Program)
    (table : Array Variable) (code : List Instr) : Prop where
  code : code = programCode target sourceName table program
  placed : Placed program.root.owned program.symbols table
  laid : BlockLaid target table 0 program.vars program.root.children

theorem owned_root : program.root.owned = program.vars ++ Node.ownedAll program.root.children := by
  rw [Program.vars]
  cases program.root
  rw [Node.owned_mk]

theorem ready_start (h : program.WellFormed) :
    Ready [] (program.vars ++ Node.ownedAll program.root.children)
      (startLines (Node.sitesAll [program.root.id] none program.root.children))
      { symbols := program.symbols } where
  stored := by simp [Stored]
  unplaced n mem := by
    rw [← owned_root] at mem
    have mem := mem_range.mp (h.owned.mem_iff.mp mem)
    have found := Array.getElem?_eq_getElem mem
    exact ⟨_, found, (h.declared n _ found).address⟩
  ownedOnce := by
    rw [← owned_root]
    exact h.owned.nodup_iff.mpr nodup_range
  linesOnce := h.runs
  fresh _ _ eq := by cases eq

theorem ends_start {s : Emission} {rest : Emit Unit} {post : Unit → Emission → Prop}
    (h : ∀ s', Emitted [] [] (fun _ => if target = .mingw then [.call "___main"] else [])
      (fun _ => True) s s' → rest.Ends s' post) :
    Emit.Ends (do
      if target = .mingw then
        emit [.call "___main"]
      rest) s post := by
  by_cases isMingw : target = .mingw
  · simp only [isMingw, if_true] at h ⊢
    exact ends_emit.bind fun _ s' done => h s' done
  · simp only [isMingw, if_false] at h ⊢
    exact h s ⟨rfl, .refl, .inl rfl, by simp, fun _ _ => trivial⟩

/-- A well-formed program is generated as its tree says, up to the limits of code generation. -/
theorem ends_program (h : program.WellFormed) :
    (Lower.program target sourceName program).Ends { symbols := program.symbols } fun _ s' =>
      Generated target sourceName program s'.symbols s'.code.toList := by
  refine ends_emit.bind fun _ s₁ done₁ => ?_
  refine ends_emit.bind fun _ s₂ done₂ => ?_
  have ready₂ := ((ready_start h).after done₁).after done₂
  refine (ends_enter ready₂).bind fun size s₃ entered => ?_
  refine (ends_record entered).bind fun _ s₃ entered => ?_
  refine ends_emit.bind fun _ s₄ done₄ => ?_
  refine ends_start fun s₅ done₅ => ?_
  have ready₅ := ((entered.ready ready₂).after done₄).after done₅
  rw [append_nil] at ready₅
  refine Ends.bind (emits_statements (fun node mem last =>
    emits_statement (h.statements node mem) _ last) s₅ ready₅ (by simp)) fun _ s₆ ⟨done₆, _⟩ => ?_
  refine ends_emit.mono fun _ s₇ done₇ => ?_
  have before := done₂.after done₁
  have done := (done₆.after (done₅.after done₄)).before done₇
  have settled : Settled s₇.symbols s₇.symbols := fun _ _ found _ => found
  obtain ⟨sizeEq, assigned⟩ := entered.laid _ (done.placed.settled settled)
  have placed := before.placed.trans (entered.placed.trans done.placed)
  rw [← owned_root] at placed
  rw [before.top] at assigned
  refine ⟨?_, placed, assigned, ?_⟩
  · rw [done.code _ settled, entered.code, before.code s₂.symbols fun _ _ found _ => found,
      programCode, prologue, ← Program.vars, ← sizeEq]
    simp only [append_assoc, nil_append, cons_append]
  · rw [← sizeEq]
    have top : s₅.top = 0 + size := by rw [done₅.top, done₄.top, entered.top, before.top]
    exact top ▸ (done.laid _ settled).1.2

end Whole

end Lower

variable {program : Program} {generator : Generator}

theorem Generator.compile_ends (h : program.WellFormed) :
    match (generator.compile program).result with
    | .ok _ => Lower.Generated generator.target generator.sourceName program
        (generator.compile program).symbols (generator.compile program).generator.code.toList
    | .error d => ∃ fault, d.fault = .emission fault ∧ fault.IsLimit := by
  have ends := @Lower.ends_program program generator.target generator.sourceName h
  unfold Emit.Ends at ends
  show match ((Lower.program generator.target generator.sourceName program).run.run
      { symbols := program.symbols }).1 with
    | .ok _ => Lower.Generated generator.target generator.sourceName program
        ((Lower.program generator.target generator.sourceName program).run.run
          { symbols := program.symbols }).2.symbols
        ((Lower.program generator.target generator.sourceName program).run.run
          { symbols := program.symbols }).2.code.toList
    | .error d => ∃ fault, d.fault = .emission fault ∧ fault.IsLimit
  revert ends
  rcases (Lower.program generator.target generator.sourceName program).run.run
    { symbols := program.symbols } with ⟨_ | _, _⟩ <;> exact id

/-- A program that is accepted is generated as its tree says. -/
theorem Generator.generated (h : program.WellFormed)
    (accepted : (generator.compile program).result = .ok ()) :
    Lower.Generated generator.target generator.sourceName program
      (generator.compile program).symbols (generator.compile program).generator.code.toList := by
  have ends := @compile_ends program generator h
  rw [accepted] at ends
  exact ends

end LineBasic

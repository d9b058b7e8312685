import LineBasic.Assembly.Instr
import LineBasic.Diagnostic.Fault

/-!
Lowered code: the instructions emitted so far and how the lowering ended.
-/

namespace LineBasic

structure Lowered (α : Type) where
  code : List Instr
  result : Except EmissionFault α

namespace Lowered

variable {α β : Type}

def emit (code : List Instr) : Lowered Unit :=
  ⟨code, .ok ()⟩

def fail (fault : EmissionFault) : Lowered α :=
  ⟨[], .error fault⟩

def bind (first : Lowered α) (next : α → Lowered β) : Lowered β :=
  match first.result with
  | .ok a => ⟨first.code ++ (next a).code, (next a).result⟩
  | .error fault => ⟨first.code, .error fault⟩

instance : Monad Lowered where
  pure a := ⟨[], .ok a⟩
  bind := bind

instance : LawfulMonad Lowered := LawfulMonad.mk' Lowered
  (by
    intro α lowered
    obtain ⟨code, result⟩ := lowered
    cases result with
    | error fault => rfl
    | ok a => simp [Functor.map, bind])
  (by intros; rfl)
  (by
    intro α β γ first next last
    obtain ⟨code, result⟩ := first
    cases result with
    | error fault => rfl
    | ok a =>
      show bind (bind ⟨code, .ok a⟩ next) last = bind ⟨code, .ok a⟩ fun a => bind (next a) last
      unfold bind
      cases h : (next a).result <;> simp [h])

end Lowered

end LineBasic

import LineBasic.Proofs.Parse.Stack

/-!
The scanner keeps each string on one line, between its quotes.
-/

namespace LineBasic

theorem Spells.isQuoted {text : String} (h : Spells (.literal .text) text.toList) :
    IsQuoted text := by
  generalize eq : text.toList = cs at h
  cases h with
  | text quotable => exact ⟨_, eq, quotable.newline_not_mem⟩

theorem allQuoted_of_tokenize {source : String} {tokens : List Token}
    (h : tokenize source = .ok tokens) : AllQuoted tokens := by
  intro token mem isText
  have spelled := spells_of_tokenize h token mem
  rw [isText] at spelled
  exact spelled.isQuoted

theorem result_parseSource {source : String} {collect : Bool} {program : Program} :
    (parseSource source collect).result = .ok program ↔
      ∃ tokens, tokenize source = .ok tokens ∧ (parse tokens collect).result = .ok program := by
  unfold parseSource Report.bind tokenizeLogged
  cases tokenize source <;> simp

theorem wellFormed_of_parseSource {source : String} {collect : Bool} {program : Program}
    (h : (parseSource source collect).result = .ok program) : program.WellFormed := by
  obtain ⟨tokens, scanned, parsed⟩ := result_parseSource.mp h
  exact wellFormed_of_parse (allQuoted_of_tokenize scanned) parsed

end LineBasic

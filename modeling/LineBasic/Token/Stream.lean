import LineBasic.Diagnostic.Basic

/-!
A stream of tokens with a place in it: what was read, last token first, and what is still to read.
-/

namespace LineBasic

structure TokenStream where
  past : List Token
  rest : List Token

namespace TokenStream

def ofTokens (tokens : List Token) : TokenStream :=
  ⟨[], tokens⟩

def toList (stream : TokenStream) : List Token :=
  stream.past.reverse ++ stream.rest

@[simp] theorem toList_ofTokens (tokens : List Token) : (ofTokens tokens).toList = tokens := by
  simp [toList, ofTokens]

def peek? (stream : TokenStream) : Option Token :=
  stream.rest.head?

def peekKind? (stream : TokenStream) : Option TokenKind :=
  stream.peek?.map Token.kind

def atEnd (stream : TokenStream) : Bool :=
  stream.rest.isEmpty

def previous? (stream : TokenStream) : Option Token :=
  stream.past.head?

def next? (stream : TokenStream) : Option (Token × TokenStream) :=
  match stream.rest with
  | [] => none
  | token :: rest => some (token, ⟨token :: stream.past, rest⟩)

theorem toList_next? {stream after : TokenStream} {token : Token}
    (h : stream.next? = some (token, after)) : after.toList = stream.toList := by
  unfold next? at h
  split at h
  next => simp at h
  next eq =>
    cases h
    simp [toList, eq]

/-- Puts the token read last back; at the start there is none. -/
def back (stream : TokenStream) : TokenStream :=
  match stream.past with
  | [] => stream
  | token :: past => ⟨past, token :: stream.rest⟩

@[simp] theorem toList_back (stream : TokenStream) : stream.back.toList = stream.toList := by
  unfold back
  split
  next => rfl
  next eq => simp [toList, eq]

/-- Why a token of some kind cannot be read. -/
inductive Refusal where
  | mismatch (found : Token) (expected : TokenKind)
  | endOfSource

namespace Refusal

def fault : Refusal → GrammarFault
  | mismatch found expected => .mismatch found.kind expected
  | endOfSource => .endOfSource

def diagnostic (refusal : Refusal) : Diagnostic where
  fault := .grammar refusal.fault
  position := match refusal with
    | mismatch found _ => some found.position
    | endOfSource => none

end Refusal

def consume (stream : TokenStream) (kind : TokenKind) : Except Refusal (Token × TokenStream) :=
  match stream.rest with
  | [] => .error .endOfSource
  | token :: rest =>
    if token.kind = kind then .ok (token, ⟨token :: stream.past, rest⟩)
    else .error (.mismatch token kind)

/-- The place of the next token, or of the last one when all are read. -/
def position? (stream : TokenStream) : Option Position :=
  (stream.peek?.or stream.previous?).map Token.position

end TokenStream

end LineBasic

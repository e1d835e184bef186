import Mathlib.Data.List.Intervals
import StackMachine.Proofs.Faults
import StackMachine.Proofs.Tracing

/-!
# The path of a run, told from its trace

A trace says nothing of most instructions: a tag is raised for a jump that is taken, but none
for one that is not, and none for a literal or a sum. Still the trace tells the whole path of the
run. Between two jumps the instructions are dispatched one after the other, so a run consists of
*legs*, each from the target of a jump to the source of the next one. The first leg begins at the
first instruction, and the last one ends where the last tag says.

A jump may go to a label that an earlier program has left behind, perhaps beyond the end of the
program. The last leg is empty then, and the run finishes where it has landed.

## Main definitions

* `path`: the indices of the legs between given jumps.
* `Ascends`: no leg ends before it begins.
* `Linked`: each visit is made where the one before it leads to.

## Main results

* `Config.linked_visits`: the visits of a run are linked.
* `Linked.map_ip_eq`: the indices of linked visits are the path between their jumps.
* `path_of_trace`: **the trace of a run determines the instructions that it dispatches.**
-/

namespace StackMachine

/-! ### Paths -/

/-- The indices of the legs between jumps, each of which is given by its source and its target:
from `start` to the first source, from its target to the next source, and at last from the
target of the last jump up to, but not including, `stop`. -/
def path (start : Nat) : List (Nat × Nat) → Nat → List Nat
  | [], stop => List.Ico start stop
  | (source, target) :: jumps, stop => List.Ico start (source + 1) ++ path target jumps stop

/-- No leg ends before it begins: `start` is at most the first source, each target at most the
next source, and the last target at most `h`. -/
def Ascends (start : Nat) : List (Nat × Nat) → Nat → Prop
  | [], h => start ≤ h
  | (source, target) :: jumps, h => start ≤ source ∧ Ascends target jumps h

section Paths

variable {start stop : Nat} {jumps : List (Nat × Nat)}

/-- A path goes through to the source of its first jump and on from its target. -/
theorem path_jump (source target : Nat) : path start ((source, target) :: jumps) stop =
    List.Ico start (source + 1) ++ path target jumps stop := rfl

/-- A path may start at the index before. -/
theorem Ascends.of_succ (h : Ascends (start + 1) jumps stop) : Ascends start jumps stop := by
  rcases jumps with _ | ⟨⟨source, target⟩, jumps⟩
  · exact Nat.le_of_succ_le h
  · exact ⟨Nat.le_of_succ_le h.1, h.2⟩

/-- A first leg that begins one index earlier has one more index. -/
theorem path_eq_cons (h : Ascends (start + 1) jumps stop) :
    path start jumps stop = start :: path (start + 1) jumps stop := by
  rcases jumps with _ | ⟨⟨source, target⟩, jumps⟩
  · exact List.Ico.eq_cons h
  · rw [path_jump, path_jump, List.Ico.eq_cons (Nat.lt_succ_of_lt h.1), List.cons_append]

end Paths

/-! ### Linked visits -/

/-- The source and the target of the jump that a visit takes, if it takes one. -/
def Visit.leap? (v : Visit) : Option (Nat × Nat) := v.jump?.map fun (_, target) => (v.ip, target)

/-- Each visit is made where the one before it leads to, the first one at `start`. -/
def Linked : Nat → List Visit → Prop
  | _, [] => True
  | start, v :: rest => v.ip = start ∧ Linked v.next rest

/-- Where visits lead to, if the first one is made at `start`. -/
def landing (start : Nat) (visited : List Visit) : Nat := visited.getLast?.elim start Visit.next

/-- Visits lead where those behind the first one lead. -/
theorem landing_cons (start : Nat) (v : Visit) (rest : List Visit) :
    landing start (v :: rest) = landing v.next rest := by
  rw [landing, landing, List.getLast?_cons]
  cases rest.getLast? <;> rfl

/-- The visits of a run are linked. -/
theorem Config.linked_visits (w : Watch) (code : Array Instr) (b : Nat) (c : Config) :
    Linked c.ip (c.visits w code b) := by
  induction b generalizing c with
  | zero => trivial
  | succ b ih =>
      cases hc : code[c.ip]? with
      | none =>
          rw [visits_of_none hc]
          trivial
      | some ins =>
          cases hd : c.dispatch w ins with
          | inl next =>
              rw [visits_of_inl hc hd]
              exact ⟨rfl, ip_of_dispatch_inl hd ▸ ih next⟩
          | inr r =>
              rw [visits_of_inr hc hd]
              exact ⟨rfl, trivial⟩

/-- A visit leads to the target of its jump, or else to the next index. -/
theorem Visit.leap_cases (v : Visit) :
    (∃ target, v.leap? = some (v.ip, target) ∧ v.next = target) ∨
      v.leap? = none ∧ v.next = v.ip + 1 := by
  rw [leap?, next]
  rcases v.jump? with _ | ⟨label, target⟩
  · exact .inr ⟨rfl, rfl⟩
  · exact .inl ⟨target, rfl, rfl⟩

namespace Linked

variable {start : Nat} {visited : List Visit} {v : Visit}

/-- **The indices of linked visits are the path between their jumps**, up to where they lead. -/
theorem map_ip_eq (h : Linked start visited) :
    Ascends start (visited.filterMap Visit.leap?) (landing start visited) ∧
      visited.map Visit.ip =
        path start (visited.filterMap Visit.leap?) (landing start visited) := by
  induction visited generalizing start with
  | nil => exact ⟨Nat.le_refl start, List.Ico.self_empty.symm⟩
  | cons v rest ih =>
      obtain ⟨rfl, hrest⟩ := h
      obtain ⟨hascends, hpath⟩ := ih hrest
      rw [landing_cons, List.map_cons, hpath]
      rcases v.leap_cases with ⟨target, hleap, hnext⟩ | ⟨hleap, hnext⟩
      · rw [List.filterMap_cons_some hleap, path_jump, List.Ico.succ_singleton, ← hnext]
        exact ⟨⟨Nat.le_refl _, hascends⟩, rfl⟩
      · rw [hnext] at hascends ⊢
        rw [List.filterMap_cons_none hleap, path_eq_cons hascends]
        exact ⟨hascends.of_succ, rfl⟩

/-- If the last of linked visits does not jump, the path ends with it. -/
theorem map_ip_eq_of_last (h : Linked start visited) (hlast : visited.getLast? = some v)
    (hleap : v.leap? = none) : Ascends start (visited.filterMap Visit.leap?) v.ip ∧
      visited.map Visit.ip = path start (visited.filterMap Visit.leap?) (v.ip + 1) := by
  constructor
  · induction visited generalizing start with
    | nil => cases hlast
    | cons u rest ih =>
        obtain ⟨rfl, hrest⟩ := h
        rcases rest with _ | ⟨u', rest⟩
        · obtain rfl : u = v := Option.some.inj hlast
          rw [List.filterMap_cons_none hleap]
          exact Nat.le_refl u.ip
        · have hascends := ih hrest hlast
          rcases u.leap_cases with ⟨target, hsome, hnext⟩ | ⟨hnone, hnext⟩
          · rw [List.filterMap_cons_some hsome]
            exact ⟨Nat.le_refl _, hnext ▸ hascends⟩
          · rw [List.filterMap_cons_none hnone]
            exact Ascends.of_succ (hnext ▸ hascends)
  · have hlanding : landing start visited = v.ip + 1 := by
      rw [landing, hlast]
      rcases v.leap_cases with ⟨target, hsome, -⟩ | ⟨-, hnext⟩
      · rw [hleap] at hsome
        cases hsome
      · exact hnext
    rw [← hlanding]
    exact h.map_ip_eq.2

end Linked

/-! ### Reading a trace -/

/-- The position that a number of the interchange format stands for. -/
def Number.position (x : Number) : Nat := (x.toInt?.getD 0).toNat

/-- A natural number stands for itself as a position. -/
@[simp] theorem Number.position_ofNat (n : Nat) : (Number.ofNat n).position = n := by
  simp [position, ofNat, ofInt, toInt?, Rat.ofInt]

/-- The source and the target of a tag that reports a jump. -/
def Tag.leap? : Tag → Option (Nat × Nat)
  | jump source target _ => some (source.position, target.position)
  | _ => none

/-- The tag of a visit reports its jump. -/
theorem Visit.leap?_tag? (v : Visit) : v.tag?.bind Tag.leap? = v.leap? := by
  rw [tag?, leap?]
  rcases v.jump? with _ | ⟨label, target⟩
  · cases v.print? <;> rfl
  · simp [Tag.leap?]

namespace Closes

variable {start : Nat} {visited : List Visit} {e : Ending} {last : List Tag}

/-- The last tag reports no jump. -/
theorem filterMap_leap? (h : Closes start visited e last) : last.filterMap Tag.leap? = [] := by
  cases h <;> rfl

/-- A run that finishes reports where its visits have led and what it left. -/
theorem eq_of_finished {value : Option Int} (h : Closes start visited (.finished value) last) :
    last = [.halt .finished (.ofNat (landing start visited)) (value.map toString)] := by
  cases h with
  | finished value => rfl
  | named hresult hip => cases hresult
  | unnamed hresult hip hlast => cases hresult
  | defect hresult => cases hresult

/-- A run that finds too few operands reports its last visit. -/
theorem eq_of_underflow {v : Visit} (h : Closes start visited .underflow last)
    (hv : visited.getLast? = some v) : last = [.halt .underflow (.ofNat v.ip) none] := by
  cases h with
  | underflow hlast =>
      obtain rfl := Option.some.inj (hv.symm.trans hlast)
      rfl
  | named hresult hip => cases hresult
  | unnamed hresult hip hlast => cases hresult
  | defect hresult => cases hresult

/-- A run that a fault stops reports the code and the index of the fault. -/
theorem eq_of_faulted {f : Fault} (h : Closes start visited (.faulted f) last) :
    last = [.fault f.cause.code (.ofNat f.ip)] := by
  cases h with
  | named hresult hip =>
      cases hresult
      cases hip
      rfl
  | unnamed hresult hip hlast =>
      cases hresult
      exact absurd rfl (hip _)
  | defect hresult => cases hresult

end Closes

/-- The jumps that a trace reports are those of the visits. -/
theorem filterMap_leap?_tags {bound : List (Number × Nat)} {visited : List Visit}
    {last : List Tag} (hlast : last.filterMap Tag.leap? = []) :
    (Tag.binds bound ++ visited.filterMap Visit.tag? ++ last).filterMap Tag.leap? =
      visited.filterMap Visit.leap? := by
  have hbinds : (Tag.binds bound).filterMap Tag.leap? = [] := by
    refine List.filterMap_eq_nil_iff.2 ?_
    intro t ht
    obtain ⟨x, -, rfl⟩ := List.mem_map.1 ht
    rfl
  rw [List.filterMap_append, List.filterMap_append, hbinds, hlast, List.filterMap_filterMap]
  simp only [Visit.leap?_tag?, List.nil_append, List.append_nil]

/-- An instruction that ends a run does not jump. -/
theorem Config.leap?_of_dispatch_inr {w : Watch} {c : Config} {ins : Instr} {r : Report}
    (hd : c.dispatch w ins = .inr r) : (c.visit ins).leap? = none := by
  have hjump : (c.visit ins).jump? = (step ins c.state).jump? := Visit.jump?_eq _
  rw [Visit.leap?, hjump]
  obtain ⟨v, s, e, hs, -⟩ | ⟨s, hs, -⟩ | ⟨cause, s, hs, -⟩ | ⟨hs, -⟩ := dispatch_inr_cases hd <;>
    rw [hs] <;> rfl

/-- **The trace of a run determines its path.** Take a well-formed program on any state, a sink
that takes every line, and a traced run that ends. If its labels are bound, the last tag is a
halt or a fault at an index `h`. The first jump of the trace does not start before the first
instruction, no jump starts before the target of the one before it, and `h` is not before the
target of the last one. The instructions that were dispatched are, in order, those from the first
one to the source of the first jump, those from its target to the source of the next one, and so
on, and at last those from the target of the last jump to `h`; the one at `h` was dispatched
unless the run halted at its end. If the labels are not bound, no instruction was dispatched. -/
theorem path_of_trace (sink : Sink) (hsink : ∀ taken line, sink taken line = none) (p : Program)
    (hp : p.WellFormed) (s : State) (b : Nat)
    (hends : (execute ⟨true, sink⟩ b p s).ending ≠ .exhausted) :
    let tags := (execute ⟨true, sink⟩ b p s).tags
    let jumps := tags.filterMap Tag.leap?
    let dispatched := (visits ⟨true, sink⟩ b p s).map Visit.ip
    ((s.table.bindAll p).fault = none → ∃ h, Ascends 0 jumps h ∧
      ((∃ value, tags.getLast? = some (.halt .finished (.ofNat h) value) ∧
          dispatched = path 0 jumps h) ∨
        (tags.getLast? = some (.halt .underflow (.ofNat h) none) ∧
          dispatched = path 0 jumps (h + 1)) ∨
        (∃ code, tags.getLast? = some (.fault code (.ofNat h)) ∧
          dispatched = path 0 jumps (h + 1)))) ∧
    ((s.table.bindAll p).fault ≠ none → dispatched = []) := by
  intro tags jumps dispatched
  let w : Watch := ⟨true, sink⟩
  constructor
  · intro hfault
    have hrun : execute w b p s = (Config.start w p s).run w p.toArray b := by
      rw [execute_eq, hfault]
    have hvisits : visits w b p s = (Config.start w p s).visits w p.toArray b := by
      simp only [visits, hfault]
    have hlinked : Linked 0 (visits w b p s) := by
      rw [hvisits]
      exact Config.linked_visits w p.toArray b (Config.start w p s)
    obtain ⟨last, hcloses, htags, -⟩ := exists_tags_execute (w := w) rfl b p s
    have hjumps : jumps = (visits w b p s).filterMap Visit.leap? := by
      simp only [jumps, tags]
      rw [htags]
      exact filterMap_leap?_tags hcloses.filterMap_leap?
    have hlast : ∀ t, last = [t] → tags.getLast? = some t := by
      rintro t rfl
      simp only [tags]
      rw [htags]
      exact List.getLast?_concat
    rw [hjumps]
    -- The run has come to its end, or its last visit has stopped it.
    rcases Config.exists_last_visit w p.toArray b (Config.start w p s) with
      hexhausted | ⟨c, hfinish⟩ | ⟨c, ins, hvisit, hins, hd⟩
    · exact absurd (hrun ▸ hexhausted) hends
    · obtain ⟨hascends, hpath⟩ := hlinked.map_ip_eq
      rw [hrun, hfinish] at hcloses
      exact ⟨_, hascends, .inl ⟨_, hlast _ hcloses.eq_of_finished, hpath⟩⟩
    · rw [← hrun] at hd
      rw [← hvisits] at hvisit
      rw [List.getElem?_toArray] at hins
      obtain ⟨hascends, hpath⟩ :=
        hlinked.map_ip_eq_of_last hvisit (Config.leap?_of_dispatch_inr hd)
      refine ⟨c.ip, hascends, .inr ?_⟩
      rcases Config.blame_of_dispatch_inr (hp ins (List.mem_of_getElem? hins)) hsink hd with
        hunder | ⟨cause, hcause, -⟩
      · rw [hunder] at hcloses
        exact .inl ⟨hlast _ (hcloses.eq_of_underflow hvisit), hpath⟩
      · rw [hcause] at hcloses
        exact .inr ⟨_, hlast _ hcloses.eq_of_faulted, hpath⟩
  · intro hfault
    obtain ⟨f, hf⟩ := Option.ne_none_iff_exists'.1 hfault
    simp only [dispatched, visits, hf, List.map_nil]

/-- A jump through a label that an earlier program has left beyond the end, after a branch that
is not taken. -/
theorem path_of_trace_stale :
    let p : Program := [.lit 0, .lit 0, .bare .cjmp, .lit 0, .bare .jmp, .lit 5]
    let s : State := ⟨[], .empty, ⟨#[9]⟩⟩
    p.WellFormed ∧ (execute ⟨true, Sink.takeAll⟩ 20 p s).ending ≠ .exhausted ∧
      (execute ⟨true, Sink.takeAll⟩ 20 p s).tags =
        [.jump (.ofNat 4) (.ofNat 9) (.ofNat 0), .halt .finished (.ofNat 9) none] ∧
      (visits ⟨true, Sink.takeAll⟩ 20 p s).map Visit.ip = path 0 [(4, 9)] 9 := by
  intro p s
  have hp : p.WellFormed := by decide
  have hends : (execute ⟨true, Sink.takeAll⟩ 20 p s).ending ≠ .exhausted := by decide
  have htags : (execute ⟨true, Sink.takeAll⟩ 20 p s).tags =
      [.jump (.ofNat 4) (.ofNat 9) (.ofNat 0), .halt .finished (.ofNat 9) none] := by decide
  obtain ⟨hpath, -⟩ := path_of_trace Sink.takeAll (fun _ _ => rfl) p hp s 20 hends
  obtain ⟨h, -, ⟨value, hlast, heq⟩ | ⟨hlast, -⟩ | ⟨code, hlast, -⟩⟩ := hpath rfl
  all_goals rw [htags] at hlast
  · rw [htags] at heq
    cases hlast
    exact ⟨hp, hends, htags, heq⟩
  · cases hlast
  · cases hlast

end StackMachine

import StackMachine.Environment
import StackMachine.Proofs.Members

/-!
# First reads

A flag of the environment is remembered when it is asked for, and what is remembered counts until
it is forgotten. So the answer to a question depends on the past: it tells what the variable was
at the **first read** of the flag since the last `forget`, whoever asked then. This module tells
the past as a list of uses of the environment and finds the first read in it.

## Main definitions

* `Environment.Use`, `Environment.after`: uses of the environment, and what they lead to.
* `Environment.FirstRead`: the first read of a flag since the last `forget`.

## Main results

* `Environment.FirstRead.eq`: there is at most one first read.
* `Environment.read_after`: **a flag is what its variable was at the first read.**
-/

namespace StackMachine

/-! ### Uses of the environment -/

/-- A flag of the environment. -/
inductive Flag where
  /-- The one that switches tracing on. -/
  | trace
  /-- The one that copies the trace to the error stream. -/
  | stderr
  deriving DecidableEq

/-- The variable that decides a flag. -/
def Flag.variableName : Flag → String
  | trace => Environment.traceVariable
  | stderr => Environment.stderrVariable

namespace Environment

/-- What is remembered of a flag. -/
def remembered (f : Flag) (env : Environment) : Option Bool :=
  match f with
  | .trace => env.trace
  | .stderr => env.stderr

/-- Asks for a flag. -/
def read (f : Flag) (env : Environment) : Bool × Environment :=
  match f with
  | .trace => env.readTrace
  | .stderr => env.readStderr

/-- Something that is done with the environment. -/
inductive Use where
  /-- A variable is set, or unset. -/
  | set (name : String) (value : Option String)
  /-- What is remembered is forgotten. -/
  | forget
  /-- A flag is asked for. -/
  | read (f : Flag)
  deriving DecidableEq

/-- The environment after a use. -/
def Use.apply : Use → Environment → Environment
  | set name value, env => env.set name value
  | forget, env => env.forget
  | read f, env => (env.read f).2

/-- The environment after a history of uses, the newest first. -/
def after (start : Environment) : List Use → Environment
  | [] => start
  | u :: earlier => u.apply (start.after earlier)

/-- What a variable is set to after a history of uses, the newest first. -/
def value? (start : Environment) (name : String) : List Use → Option String
  | [] => start.settings.lookup name
  | .set n value :: earlier => if name = n then value else start.value? name earlier
  | .forget :: earlier => start.value? name earlier
  | .read _ :: earlier => start.value? name earlier

/-- A variable that is set to the value, or not set, switches its flag on. -/
def SwitchesOn (value : Option String) : Prop := ∃ v ∈ value, v.toLower = "1" ∨ v.toLower = "true"

/-- Every read of a flag in a history was followed by a `forget`. -/
def Unread (f : Flag) (history : List Use) : Prop :=
  ∀ later before, history = later ++ .read f :: before → .forget ∈ later

/-- The **first read** of a flag since the last `forget`, told by the history before it. -/
structure FirstRead (f : Flag) (history before : List Use) : Prop where
  read : ∃ later, history = later ++ .read f :: before ∧ .forget ∉ later
  unread : Unread f before

section Uses

variable {start env : Environment} {f g : Flag} {u : Use} {history before : List Use}

/-- A history in two parts leads on from where the earlier part leads. -/
theorem after_append (start : Environment) (later earlier : List Use) :
    start.after (later ++ earlier) = (start.after earlier).after later := by
  induction later with
  | nil => rfl
  | cons u later ih => rw [List.cons_append, after, ih, after]

/-! ### What is remembered -/

/-- Setting a variable changes nothing that is remembered. -/
theorem remembered_set (name : String) (value : Option String) :
    (env.set name value).remembered f = env.remembered f := by
  cases f <;> rfl

/-- After a reset nothing is remembered. -/
theorem remembered_forget : env.forget.remembered f = none := by
  cases f <;> rfl

/-- A flag is answered from memory, or else from its variable. -/
theorem read_fst : (env.read f).1 = (env.remembered f).getD (env.flag f.variableName) := by
  cases f with
  | trace =>
      rw [read, readTrace, remembered]
      cases env.trace <;> rfl
  | stderr =>
      rw [read, readStderr, remembered]
      cases env.stderr <;> rfl

/-- The answer is remembered, and the other flag is left alone. -/
theorem remembered_read :
    (env.read g).2.remembered f = if g = f then some (env.read f).1 else env.remembered f := by
  cases g with
  | trace =>
      cases f <;> simp only [read, readTrace, remembered] <;> cases h : env.trace <;> simp [h]
  | stderr =>
      cases f <;> simp only [read, readStderr, remembered] <;> cases h : env.stderr <;> simp [h]

/-- Reading a flag changes no setting. -/
theorem settings_read : (env.read f).2.settings = env.settings := by
  cases f with
  | trace =>
      rw [read, readTrace]
      cases env.trace <;> rfl
  | stderr =>
      rw [read, readStderr]
      cases env.stderr <;> rfl

/-- To ask for a flag changes no answer. -/
theorem read_read : ((env.read g).2.read f).1 = (env.read f).1 := by
  rw [read_fst, remembered_read]
  split
  · rfl
  · rw [flag, settings_read, ← flag, ← read_fst]

/-! ### What the variables are set to -/

/-- Without the settings of a name, that name has none and the others keep theirs. -/
theorem lookup_filter_ne (name : String) (settings : List (String × String)) (k : String) :
    (settings.filter fun (n, _) => n != name).lookup k =
      if k = name then none else settings.lookup k := by
  induction settings with
  | nil => simp
  | cons setting settings ih =>
      obtain ⟨n, v⟩ := setting
      rw [Members.lookup_cons_eq_ite]
      by_cases hn : n = name
      · rw [List.filter_cons_of_neg (by simpa using hn), ih, hn]
        split <;> rfl
      · rw [List.filter_cons_of_pos (by simpa using hn), Members.lookup_cons_eq_ite, ih]
        by_cases hk : k = n
        · rw [if_pos hk, if_pos hk, if_neg (hk ▸ hn)]
        · rw [if_neg hk, if_neg hk]

/-- A variable that was set is found, and all others as before. -/
theorem lookup_set (name : String) (value : Option String) (k : String) :
    (env.set name value).settings.lookup k =
      if k = name then value else env.settings.lookup k := by
  rw [set]
  cases value with
  | none => exact lookup_filter_ne name env.settings k
  | some v =>
      rw [Option.map_some, Option.toList_some, List.singleton_append,
        Members.lookup_cons_eq_ite, lookup_filter_ne]
      split <;> rfl

/-- A variable has the value last given to it in a history, or else the one it had at the start. -/
theorem lookup_after (name : String) (history : List Use) :
    (start.after history).settings.lookup name = start.value? name history := by
  induction history with
  | nil => rfl
  | cons u earlier ih =>
      rw [after]
      cases u with
      | set n value => rw [Use.apply, lookup_set, ih, value?]
      | forget => exact ih
      | read g => rw [Use.apply, settings_read, ih, value?]

/-- A flag is on when its variable switches it on, in either case of its letters. -/
theorem flag_eq_true_iff (name : String) :
    env.flag name = true ↔ SwitchesOn (env.settings.lookup name) := by
  rw [flag, SwitchesOn]
  cases env.settings.lookup name <;> simp

/-! ### The first read -/

/-- Before any use no flag has been read. -/
theorem unread_nil : Unread f [] := by
  intro later before h
  simp at h

/-- A reset makes every flag unread. -/
theorem unread_forget : Unread f (.forget :: history) := by
  intro later before h
  cases later with
  | nil => cases h
  | cons u later =>
      obtain ⟨rfl, -⟩ := List.cons.inj h
      exact List.mem_cons_self

/-- A flag stays unread until it is read. -/
theorem Unread.cons (h : Unread f history) (hu : u ≠ .read f) : Unread f (u :: history) := by
  intro later before hsplit
  cases later with
  | nil => exact absurd (List.cons.inj hsplit).1 hu
  | cons _ later => exact List.mem_cons_of_mem _ (h later before (List.cons.inj hsplit).2)

/-- The read of an unread flag is its first. -/
theorem Unread.firstRead (h : Unread f history) : FirstRead f (.read f :: history) history :=
  ⟨⟨[], rfl, List.not_mem_nil⟩, h⟩

/-- The first read of a flag stays the first until the next reset. -/
theorem FirstRead.cons (h : FirstRead f history before) (hu : u ≠ .forget) :
    FirstRead f (u :: history) before := by
  obtain ⟨⟨later, rfl, hlater⟩, hunread⟩ := h
  refine ⟨⟨u :: later, rfl, ?_⟩, hunread⟩
  rintro (_ | ⟨_, hmem⟩)
  · exact hu rfl
  · exact hlater hmem

/-- There is but one first read. -/
theorem FirstRead.eq {before' : List Use} (h : FirstRead f history before)
    (h' : FirstRead f history before') : before = before' := by
  obtain ⟨⟨later, hsplit, hlater⟩, hunread⟩ := h
  obtain ⟨⟨later', hsplit', hlater'⟩, hunread'⟩ := h'
  rw [hsplit] at hsplit'
  -- A first read that is later than the other one has the other one, unforgotten, in its past.
  rcases List.append_eq_append_iff.1 hsplit' with ⟨mid, rfl, hmid⟩ | ⟨mid, rfl, hmid⟩
  · cases mid with
    | nil => exact (List.cons.inj hmid).2
    | cons _ mid =>
        have hforget := hunread mid before' (List.cons.inj hmid).2
        exact absurd (List.mem_append_right _ (List.mem_cons_of_mem _ hforget)) hlater'
  · cases mid with
    | nil => exact (List.cons.inj hmid).2.symm
    | cons _ mid =>
        have hforget := hunread' mid before (List.cons.inj hmid).2
        exact absurd (List.mem_append_right _ (List.mem_cons_of_mem _ hforget)) hlater

/-- What is remembered of a flag is what its variable was at the first read. -/
theorem remembered_after (hstart : start.remembered f = none) (history : List Use) :
    Unread f history ∧ (start.after history).remembered f = none ∨
    ∃ before, FirstRead f history before ∧
      (start.after history).remembered f = some ((start.after before).flag f.variableName) := by
  induction history with
  | nil => exact .inl ⟨unread_nil, hstart⟩
  | cons u earlier ih =>
      rw [after]
      -- Only a `forget` and a first read of the flag itself change what is remembered of it.
      cases u with
      | set name value =>
          rw [Use.apply, remembered_set]
          rcases ih with ⟨hunread, hnone⟩ | ⟨before, hfirst, hsome⟩
          · exact .inl ⟨hunread.cons nofun, hnone⟩
          · exact .inr ⟨before, hfirst.cons nofun, hsome⟩
      | forget => exact .inl ⟨unread_forget, remembered_forget⟩
      | read g =>
          rw [Use.apply, remembered_read]
          by_cases hg : g = f
          · subst hg
            rw [if_pos rfl, read_fst]
            rcases ih with ⟨hunread, hnone⟩ | ⟨before, hfirst, hsome⟩
            · exact .inr ⟨earlier, hunread.firstRead, by rw [hnone, Option.getD_none]⟩
            · exact .inr ⟨before, hfirst.cons nofun, by rw [hsome, Option.getD_some]⟩
          · rw [if_neg hg]
            rcases ih with ⟨hunread, hnone⟩ | ⟨before, hfirst, hsome⟩
            · refine .inl ⟨hunread.cons ?_, hnone⟩
              rintro ⟨⟩
              exact hg rfl
            · exact .inr ⟨before, hfirst.cons nofun, hsome⟩

/-- **A flag is what its variable was at the first read**, and that may be the read by which it
is asked for. -/
theorem read_after (hstart : start.remembered f = none) (history : List Use) :
    ∃ before, (∀ p, FirstRead f (.read f :: history) p ↔ p = before) ∧
      (((start.after history).read f).1 = true ↔
        SwitchesOn (start.value? f.variableName before)) := by
  have hfound : ∃ before, FirstRead f (.read f :: history) before ∧
      ((start.after history).read f).1 = (start.after before).flag f.variableName := by
    rw [read_fst]
    rcases remembered_after hstart history with ⟨hunread, hnone⟩ | ⟨before, hfirst, hsome⟩
    · exact ⟨history, hunread.firstRead, by rw [hnone, Option.getD_none]⟩
    · exact ⟨before, hfirst.cons nofun, by rw [hsome, Option.getD_some]⟩
  obtain ⟨before, hfirst, hanswer⟩ := hfound
  refine ⟨before, ?_, ?_⟩
  · intro p
    constructor
    · exact fun hp => hp.eq hfirst
    · rintro rfl
      exact hfirst
  · rw [hanswer, flag_eq_true_iff, lookup_after]

end Uses

end Environment

end StackMachine

import StackMachine.Trace.Tag

/-!
# The trace log

Tags that no listener takes are recorded in the innermost open scope of the log, or in its
buffer while no scope is open. Closing a scope yields its tags; the buffer is drained
separately, whether a scope is open or not.
-/

namespace StackMachine

/-- The log of recorded tags. -/
structure TraceLog where
  /-- The open scopes, the innermost first, each with its tags, the newest first. -/
  scopes : List (List Tag)
  /-- The tags recorded outside all scopes since the last drain, the newest first. -/
  buffer : List Tag

namespace TraceLog

/-- The log in which nothing is recorded. -/
def empty : TraceLog := ⟨[], []⟩

/-- Records a tag. -/
def record (t : Tag) (log : TraceLog) : TraceLog :=
  match log.scopes with
  | [] => { log with buffer := t :: log.buffer }
  | tags :: outer => { log with scopes := (t :: tags) :: outer }

/-- Drains the buffer, and gives the tags that it held. -/
def take (log : TraceLog) : List Tag × TraceLog :=
  (log.buffer.reverse, { log with buffer := [] })

/-- Opens a scope. -/
def enter (log : TraceLog) : TraceLog := { log with scopes := [] :: log.scopes }

/-- Closes the innermost scope, and gives its tags. -/
def leave (log : TraceLog) : List Tag × TraceLog :=
  match log.scopes with
  | [] => ([], log)
  | tags :: outer => (tags.reverse, { log with scopes := outer })

end TraceLog

end StackMachine

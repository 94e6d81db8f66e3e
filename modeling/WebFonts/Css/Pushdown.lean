import WebFonts.Css.Cursor

/-!
# Readers with a stack

Values and stylesheets nest, and are read by machines that keep their open functions or blocks on a
stack. A step of a `Pushdown` machine fails, finishes, or passes over some text into a new state;
since each step shortens the text ahead, every run ends. `run_of_onward`, `run_of_done` and
`run_of_error` follow a run step by step.
-/

namespace WebFonts.Css

/-- What one step leads to. -/
inductive Progress (σ α : Type) where
  /-- The text has ended, with this result. -/
  | done (result : α)
  /-- The machine goes on in this state at this cursor. -/
  | onward (state : σ) (next : Cursor)

/-- A machine that reads a text in steps, each of which shortens the text ahead. -/
structure Pushdown (σ α : Type) where
  step : σ → Cursor → Except Fault (Progress σ α)
  shortens : ∀ {state state' : σ} {cur next : Cursor},
    step state cur = .ok (.onward state' next) → next.rest.length < cur.rest.length

namespace Pushdown

variable {σ α : Type} (machine : Pushdown σ α)

/-- Runs a machine to the end of the text. -/
def run (state : σ) (cur : Cursor) : Except Fault α :=
  match _h : machine.step state cur with
  | .error fault => .error fault
  | .ok (.done result) => .ok result
  | .ok (.onward state' next) => run state' next
termination_by cur.rest.length
decreasing_by exact machine.shortens ‹_›

variable {machine} {state state' : σ} {cur next : Cursor}

theorem run_of_onward (h : machine.step state cur = .ok (.onward state' next)) :
    machine.run state cur = machine.run state' next := by
  rw [run.eq_def]; split <;> simp_all

theorem run_of_done {result : α} (h : machine.step state cur = .ok (.done result)) :
    machine.run state cur = .ok result := by
  rw [run.eq_def]; split <;> simp_all

theorem run_of_error {fault : Fault} (h : machine.step state cur = .error fault) :
    machine.run state cur = .error fault := by
  rw [run.eq_def]; split <;> simp_all

end Pushdown

end WebFonts.Css

import Mathlib
import ValueMix.CommandLine.Console
import ValueMix.Report.Page

/-!
# Programs that write

Two kinds of steps make up a command. A step that prints writes its text behind
what is there and does not fail; an attempt writes nothing, but may fail. A
program that prints after its last attempt leaves either its whole text or a
failure and no text.

## Main results

* `Prints.andThen`, `prints_forM`, `prints_writeLines` — texts of longer
  programs.
* `settles_attempt`, `settles_bind` — attempts with printing behind them.
* `Settles.transcript_spec` — what such a program leaves behind.
-/

namespace ValueMix.CommandLine.Console

variable {α : Type}

/-- Whatever was written before, the program adds a text to it and does not
fail. -/
def Prints (p : Console Unit) (text : String) : Prop :=
  ∀ written, p.run.run written = (.ok (), written ++ text)

theorem prints_write (text : String) : Prints (write text) text :=
  fun _ => rfl

theorem prints_writeLine (line : String) :
    Prints (writeLine line) (line ++ "\n") :=
  prints_write _

theorem Prints.andThen {p q : Console Unit} {s t : String} (hp : Prints p s)
    (hq : Prints q t) : Prints (do p; q) (s ++ t) := by
  intro written
  have hBind : (p >>= fun _ => q).run.run written =
      q.run.run (written ++ s) := by
    rw [ExceptT.run_bind, StateT.run_bind, hp written]
    rfl
  rw [← String.append_assoc]
  exact hBind.trans (hq (written ++ s))

/-- A step that is taken under a condition only. -/
theorem Prints.after {p q : Console Unit} {s t : String} (hq : Prints q t)
    (c : Prop) [Decidable c] (hp : Prints p s) :
    Prints (if c then (do p; q) else q) ((if c then s else "") ++ t) := by
  split
  · exact hp.andThen hq
  · rw [String.empty_append]
    exact hq

theorem prints_pure : Prints (pure ()) "" := by
  intro written
  rw [String.append_empty]
  rfl

/-- A loop prints the texts of its rounds one after another. -/
theorem prints_forM {f : α → Console Unit} {g : α → String}
    (h : ∀ x, Prints (f x) (g x)) (xs : List α) :
    Prints (xs.forM f) (String.join (xs.map g)) := by
  induction xs with
  | nil => exact prints_pure
  | cons x xs ih =>
      rw [List.map_cons, String.join_cons]
      exact (h x).andThen ih

theorem prints_writeLines (lines : List String) :
    Prints (writeLines lines) (page lines) :=
  prints_forM prints_writeLine lines

theorem Prints.transcript_eq {p : Console Unit} {text : String}
    (h : Prints p text) : p.transcript = ⟨text, none⟩ := by
  rw [transcript, h, String.empty_append]

/-! ## Attempts in front of printing -/

theorem attempt_ok_bind (x : α) (k : α → Console Unit) :
    (attempt (.ok x) >>= k) = k x := rfl

theorem transcript_attempt_error (f : Failure) :
    transcript (attempt (.error f)) = ⟨"", some f⟩ := rfl

/-- The program fails before it writes anything if there is a reason to refuse,
and then for this reason; else it prints a text. -/
def Settles (p : Console Unit) (refuses : Failure → Prop) : Prop :=
  (∃ f, p = attempt (.error f) ∧ ∀ g, refuses g ↔ g = f) ∨
    ((∀ g, ¬ refuses g) ∧ ∃ text, Prints p text)

/-- A single attempt with printing behind it. -/
theorem settles_attempt {ε : Type} {step : Except ε α} {wrap : ε → Failure}
    {k : α → Console Unit} (hk : ∀ x, ∃ text, Prints (k x) text) :
    Settles (attempt (step.mapError wrap) >>= k)
      (fun f => ∃ e, step = .error e ∧ f = wrap e) := by
  cases step with
  | error e => exact .inl ⟨wrap e, rfl, fun g => by simp⟩
  | ok x => exact .inr ⟨fun g => by simp, hk x⟩

/-- An attempt with a program behind it that settles. -/
theorem settles_bind {step : Except Failure α} {k : α → Console Unit}
    {refuses : α → Failure → Prop} (hk : ∀ x, Settles (k x) (refuses x)) :
    Settles (attempt step >>= k)
      (fun f => step = .error f ∨ ∃ x, step = .ok x ∧ refuses x f) := by
  cases step with
  | error e => exact .inl ⟨e, rfl, fun g => by simp [eq_comm]⟩
  | ok x =>
      rcases hk x with ⟨f, hEq, hOnly⟩ | ⟨hNone, hText⟩
      · exact .inl ⟨f, hEq, fun g => by simpa using hOnly g⟩
      · exact .inr ⟨fun g => by simpa using hNone g, hText⟩

/-- A program that settles fails for the reasons there are, and leaves no text
when it fails. -/
theorem Settles.transcript_spec {p : Console Unit} {refuses : Failure → Prop}
    (h : Settles p refuses) (f : Failure) :
    (p.transcript.failure = some f ↔ refuses f) ∧
      (p.transcript.failure = some f → p.transcript.written = "") := by
  rcases h with ⟨g, rfl, hOnly⟩ | ⟨hNone, text, hText⟩
  · rw [transcript_attempt_error, hOnly]
    exact ⟨by simp [eq_comm], fun _ => rfl⟩
  · rw [hText.transcript_eq]
    exact ⟨by simp [hNone f], nofun⟩

end ValueMix.CommandLine.Console

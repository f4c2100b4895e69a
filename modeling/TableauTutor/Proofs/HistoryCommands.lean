import TableauTutor.History

/-!
Commands for a history, one after the other. Each is declared to act on what the one before it has left: a sentence is
added, minus one clears the history and other numbers leave it alone, and a function puts its result in the place of the
history. What is carried out follows this up to the first function; from there on everything is done to a copy, and the
history stays as the function found it.

- `run_commands`: what is left of a history after commands, against what they are declared to leave.
-/

namespace TableauTutor

namespace History

/-- what a command is declared to make of a history; nothing where it cannot be carried out -/
def Command.effect? (h : History) : Command → Option History
  | add s => some (if h.used.contains s then h else ⟨h.used ++ [s]⟩)
  | number n => some (if n = -1 then {} else h)
  | compute f => (f h).toOption
  | foreign _ => none

/-- what commands are declared to make of a history, each of what the one before it has left -/
def declared? (h : History) (cs : List Command) : Option History := cs.foldlM Command.effect? h

/-- commands that are neither functions nor foreign -/
def Command.isDirect : Command → Bool
  | add _ => true
  | number _ => true
  | compute _ => false
  | foreign _ => false

variable {num : Nat} {h k : History} {c : Command} {cs : List Command}

@[simp] theorem declared?_nil (h : History) : declared? h [] = some h := rfl

@[simp] theorem declared?_cons (h : History) (c : Command) (cs : List Command) :
    declared? h (c :: cs) = (c.effect? h).bind (declared? · cs) := by
  simp [declared?]

theorem declared?_append (h : History) (cs ds : List Command) :
    declared? h (cs ++ ds) = (declared? h cs).bind (declared? · ds) := by
  simp [declared?]

theorem toOption_step (num : Nat) (h : History) (c : Command) : (step num h c).toOption = c.effect? h := by
  cases c <;> rfl

theorem step_eq_ok_iff : step num h c = .ok k ↔ c.effect? h = some k := by
  rw [← toOption_step num]
  cases step num h c <;> simp [Except.toOption]

theorem effect?_of_step_error {e : Fault} (hstep : step num h c = .error e) : c.effect? h = none := by
  rw [← toOption_step num, hstep]
  rfl

theorem exists_step (hc : c.isDirect = true) (num : Nat) (h : History) : ∃ k, step num h c = .ok k := by
  cases c with
  | add s => exact ⟨_, rfl⟩
  | number n => exact ⟨_, rfl⟩
  | compute f => cases hc
  | foreign kind => cases hc

/-! ## One command more -/

theorem runFrom_of_error {copy : Option History} {e : Fault} (hstep : step num (copy.getD h) c = .error e)
    (cs : List Command) : runFrom num h copy (c :: cs) = (h, .error e) := by
  unfold runFrom
  rw [hstep]

theorem runFrom_on_copy {k' : History} (hstep : step num k c = .ok k') (h : History) (cs : List Command) :
    runFrom num h (some k) (c :: cs) = runFrom (num + 1) h (some k') cs := by
  rw [runFrom.eq_def]
  simp only [Option.getD_some, hstep]

theorem runFrom_compute {f : History → Outcome History} (hf : f h = .ok k) (num : Nat) (cs : List Command) :
    runFrom num h none (.compute f :: cs) = runFrom (num + 1) h (some k) cs := by
  have hstep : step num h (.compute f) = .ok k := hf
  rw [runFrom.eq_def]
  simp only [Option.getD_none, hstep]

theorem runFrom_direct (hc : c.isDirect = true) (hstep : step num h c = .ok k) (cs : List Command) :
    runFrom num h none (c :: cs) = runFrom (num + 1) k none cs := by
  cases c with
  | add s =>
    rw [runFrom.eq_def]
    simp only [Option.getD_none, hstep]
  | number n =>
    rw [runFrom.eq_def]
    simp only [Option.getD_none, hstep]
  | compute f => cases hc
  | foreign kind => cases hc

/-! ## Commands in a row -/

/-- commands for a copy do not reach the history -/
theorem runFrom_copy (num : Nat) (h k : History) (cs : List Command) : (runFrom num h (some k) cs).1 = h := by
  induction cs generalizing num k with
  | nil => rfl
  | cons c cs ih =>
    cases hstep : step num k c with
    | error e => rw [runFrom_of_error hstep]
    | ok k' => rw [runFrom_on_copy hstep, ih]

/-- **Carried out or not.** Commands are carried out on the history or its copy, whichever the commands before them are
declared to leave. -/
theorem runFrom_ok_iff (num : Nat) (h : History) (copy : Option History) (cs : List Command) :
    (runFrom num h copy cs).2 = .ok () ↔ ∃ k, declared? (copy.getD h) cs = some k := by
  induction cs generalizing num h copy with
  | nil => simp [runFrom]
  | cons c cs ih =>
    cases hstep : step num (copy.getD h) c with
    | error e => simp [runFrom_of_error hstep, effect?_of_step_error hstep]
    | ok k =>
      rw [declared?_cons, step_eq_ok_iff.1 hstep, Option.bind_some]
      cases copy with
      | some k₀ =>
        rw [Option.getD_some] at hstep
        rw [runFrom_on_copy hstep, ih, Option.getD_some]
      | none =>
        rw [Option.getD_none] at hstep
        cases c with
        | add s => rw [runFrom_direct rfl hstep, ih, Option.getD_none]
        | number n => rw [runFrom_direct rfl hstep, ih, Option.getD_none]
        | compute f => rw [runFrom_compute hstep, ih, Option.getD_some]
        | foreign kind => cases hstep

theorem runFrom_indirect (hc : c.isDirect = false) (num : Nat) (h : History) (cs : List Command) :
    (runFrom num h none (c :: cs)).1 = h := by
  cases c with
  | add s => cases hc
  | number n => cases hc
  | foreign kind => rfl
  | compute f =>
    cases hf : step num h (.compute f) with
    | error e => rw [runFrom_of_error hf]
    | ok k => rw [runFrom_compute hf, runFrom_copy]

/-- **What stays.** The history is what the commands before the first function leave. -/
theorem declared?_takeWhile (num : Nat) (h : History) (cs : List Command) :
    declared? h (cs.takeWhile Command.isDirect) = some (runFrom num h none cs).1 := by
  induction cs generalizing num h with
  | nil => rfl
  | cons c cs ih =>
    cases hc : c.isDirect with
    | false => rw [List.takeWhile_cons_of_neg (by simp [hc]), declared?_nil, runFrom_indirect hc]
    | true =>
      obtain ⟨k, hstep⟩ := exists_step hc num h
      rw [runFrom_direct hc hstep, ← ih, List.takeWhile_cons_of_pos hc, declared?_cons, step_eq_ok_iff.1 hstep,
        Option.bind_some]

/-- **Commands one after the other.** A history is left as the commands before the first function are declared to leave
it. All commands can be carried out if they can be as declared. Then either there is no function among them and the
history is as declared, or it is as the first function found it, and what the commands are declared to leave is what
those behind the function make of its result. -/
theorem run_commands (h : History) (cs : List Command) :
    declared? h (cs.takeWhile Command.isDirect) = some (h.run cs).1 ∧
    ((h.run cs).2 = .ok () ↔ ∃ k, declared? h cs = some k) ∧
    ((h.run cs).2 = .ok () →
      cs.dropWhile Command.isDirect = [] ∧ declared? h cs = some (h.run cs).1 ∨
      ∃ f rest k, cs.dropWhile Command.isDirect = .compute f :: rest ∧ f (h.run cs).1 = .ok k ∧
      declared? h cs = declared? k rest) := by
  have hstays : declared? h (cs.takeWhile Command.isDirect) = some (h.run cs).1 := declared?_takeWhile 0 h cs
  have hok : (h.run cs).2 = .ok () ↔ ∃ k, declared? h cs = some k := runFrom_ok_iff 0 h none cs
  refine ⟨hstays, hok, fun hrun => ?_⟩
  have hsplit : declared? h cs = declared? (h.run cs).1 (cs.dropWhile Command.isDirect) := by
    have happend := declared?_append h (cs.takeWhile Command.isDirect) (cs.dropWhile Command.isDirect)
    rwa [List.takeWhile_append_dropWhile, hstays, Option.bind_some] at happend
  obtain ⟨k, hk⟩ := hok.1 hrun
  rw [hsplit] at hk ⊢
  cases hrest : cs.dropWhile Command.isDirect with
  | nil => exact .inl ⟨rfl, rfl⟩
  | cons c rest =>
    have hc : c.isDirect = false := by
      have := List.head?_dropWhile_not Command.isDirect cs
      simpa [hrest] using this
    rw [hrest, declared?_cons] at hk
    cases c with
    | add s => cases hc
    | number n => cases hc
    | foreign kind => cases hk
    | compute f =>
      obtain ⟨k', hf, -⟩ := Option.bind_eq_some_iff.1 hk
      have hf' : step 0 (h.run cs).1 (.compute f) = .ok k' := step_eq_ok_iff.2 hf
      exact .inr ⟨f, rest, k', rfl, hf', by rw [declared?_cons, hf, Option.bind_some]⟩

/-- a function that empties the history is lost, and so is what is added behind it -/
theorem run_commands_emptied :
    (run {} [.add ["sentvar_p"], .compute fun _ => .ok {}, .add ["sentvar_q"]]).2 = .ok () ∧
    (run {} [.add ["sentvar_p"], .compute fun _ => .ok {}, .add ["sentvar_q"]]).1 = ⟨[["sentvar_p"]]⟩ ∧
    declared? {} [.add ["sentvar_p"], .compute fun _ => .ok {}, .add ["sentvar_q"]] = some ⟨[["sentvar_q"]]⟩ := by
  obtain ⟨hstays, hok, hrest⟩ := run_commands {} [.add ["sentvar_p"], .compute fun _ => .ok {}, .add ["sentvar_q"]]
  have hrun := hok.2 ⟨_, rfl⟩
  refine ⟨hrun, (Option.some.inj hstays).symm, ?_⟩
  rcases hrest hrun with ⟨hnone, -⟩ | ⟨f, rest, k, hfrom, hf, hdeclared⟩
  · cases hnone
  · obtain ⟨hc, rfl⟩ := List.cons.inj hfrom
    obtain rfl := Command.compute.inj hc
    obtain rfl := Except.ok.inj hf
    exact hdeclared

end History

end TableauTutor

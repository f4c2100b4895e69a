import TableauTutor.Proofs.Reached

/-!
The lexer of a session. It is made from the plugged lexicon and the plugged calculus when the session starts, and made
again when a lexicon is plugged. Nothing is made when a calculus is plugged, so the lexer stays the one of the calculus
that was plugged when it was made.

- `Session.LexedFor`: the calculus that the lexer of a session was made for, along all switches of plugins.
- `Session.lexer_after_changes`: it is the right lexer exactly if that calculus is still plugged, and proofs with signs
  can be started only with the lexer for them.
-/

namespace TableauTutor

open Calculus

namespace Session

variable {s t : Session} {c : Calculus} {a new : String}

/-! ## Switching one plugin -/

/-- a plugin is put into the socket of the lexicon, and the lexer is made again -/
def Relexes (s : Session) (a new : String) (t : Session) : Prop :=
  (∃ k, s.findSocket a = .ok k ∧ k.name = "Lexicon") ∧ exec (plugSwitch a new) s = (.ok (), t)

theorem exec_compileLexer (s : Session) : exec compileLexer s =
    match s.makeLexer with
    | .error f => (.error f, s)
    | .ok x => (.ok (), { s with lexer := x }) := by
  simp only [compileLexer, exec_bind, exec_get, exec_lift]
  cases s.makeLexer <;> rfl

/-- **A request to switch a plugin**: the lexer is made again for what is plugged then, or it stays. -/
theorem lexer_plugSwitch (a new : String) (s : Session) :
    s.Relexes a new (exec (plugSwitch a new) s).2 ∧
        (exec (plugSwitch a new) s).2.makeLexer = .ok (exec (plugSwitch a new) s).2.lexer ∨
      (∀ t, ¬ s.Relexes a new t) ∧ (exec (plugSwitch a new) s).2.lexer = s.lexer := by
  have hfailed {f : Fault} {u : Session} (h : exec (plugSwitch a new) s = (.error f, u)) (t : Session) :
      ¬ s.Relexes a new t := by
    rintro ⟨-, hok⟩
    cases (Prod.mk.inj (h.symm.trans hok)).1
  obtain ⟨f, hf⟩ | ⟨k, hk, hbound⟩ := plugSwitch_cases a new s
  · exact .inr ⟨hfailed hf, by rw [hf]⟩
  have hrun : exec (plugSwitch a new) s = _ := exec_plugSwitch hk hbound
  rcases hplug : exec (k.plug new) s.shelf with ⟨f | k', shelf⟩ <;> rw [hplug] at hrun
  · obtain ⟨f', hf'⟩ : ∃ f', exec (plugSwitch a new) s = (.error f', { s with shelf }) := by
      cases f <;> exact ⟨_, hrun⟩
    exact .inr ⟨hfailed hf', by rw [hf']⟩
  dsimp only at hrun
  generalize Files.write _ _ _ = r at hrun
  rcases r with f | files
  · exact .inr ⟨hfailed hrun, by rw [hrun]; rfl⟩
  dsimp only at hrun
  split at hrun
  · rename_i hname
    rw [exec_compileLexer] at hrun
    generalize hmade : makeLexer _ = r at hrun
    cases r with
    | error f => exact .inr ⟨hfailed hrun, by rw [hrun]; rfl⟩
    | ok x => exact .inl ⟨⟨⟨k, hk, hname⟩, by rw [hrun]⟩, by rw [hrun]; exact makeLexer_made hmade⟩
  · rename_i hname
    refine .inr ⟨fun t h => ?_, by rw [hrun]; rfl⟩
    obtain ⟨k'', hk'', hname''⟩ := h.1
    obtain rfl := Except.ok.inj (hk.symm.trans hk'')
    exact hname hname''

/-! ## Switching plugins again and again -/

/-- sessions that switching plugins leads to, each with the calculus that its lexer was made for: the one that was
plugged at the start, or when a lexicon was last plugged -/
inductive LexedFor : Calculus → Session → Prop
  | start {name : String} {files : Files} {shelf : Shelf} {catalogue : Catalogue} {draws : Draws} {speller : Speller}
      {s : Session} {c : Calculus} (h : Session.start name files shelf catalogue draws speller = .ok s)
      (hc : s.calculus = .ok c) : LexedFor c s
  | lexicon {c c' : Calculus} {s t : Session} {a new : String} (hs : LexedFor c s) (h : s.Relexes a new t)
      (hc : t.calculus = .ok c') : LexedFor c' t
  | other {c : Calculus} {s : Session} {a new : String} (hs : LexedFor c s) (h : ∀ t, ¬ s.Relexes a new t) :
      LexedFor c (exec (plugSwitch a new) s).2

/-- requests that change what is plugged -/
inductive Change where
  | switch (socketOrPlugin new : String)
  | setup (name : String) (force : Bool)

/-- the session after a request, whether it succeeded or failed -/
def Change.meet : Change → Session → Session
  | switch a new, s => (exec (plugSwitch a new) s).2
  | setup name force, s => (setupOpen name force s).2

/-- requests met one after another -/
def change (s : Session) (requests : List Change) : Session := requests.foldl (fun s r => r.meet s) s

/-- **The lexer is the one of the calculus** that it was made for. -/
theorem LexedFor.hasLexer (h : LexedFor c s) : c.HasLexer s.lexer := by
  induction h with
  | start h hc => exact hasLexer_of_makeLexer (makeLexer_start h) hc
  | @lexicon _ _ s t a new _ h hc _ =>
    obtain ⟨-, hmade⟩ | ⟨hnot, -⟩ := lexer_plugSwitch a new s
    · rw [h.2] at hmade
      exact hasLexer_of_makeLexer hmade hc
    · exact absurd h (hnot t)
  | @other c s a new _ h ih =>
    obtain ⟨hrelexes, -⟩ | ⟨-, hsame⟩ := lexer_plugSwitch a new s
    · exact absurd hrelexes (h _)
    · rw [hsame]
      exact ih

/-- a lexer that could be made was made for some calculus -/
theorem exists_calculus {x : Lexer} (h : s.makeLexer = .ok x) : ∃ c, s.calculus = .ok c := by
  obtain ⟨-, c, -, -, hc, -⟩ := makeLexer_eq_ok_iff.1 h
  exact ⟨c, hc⟩

theorem LexedFor.switch (h : LexedFor c s) (a new : String) : ∃ c', LexedFor c' (exec (plugSwitch a new) s).2 := by
  obtain ⟨hrelexes, hmade⟩ | ⟨hnot, -⟩ := lexer_plugSwitch a new s
  · obtain ⟨c', hc'⟩ := exists_calculus hmade
    exact ⟨c', .lexicon h hrelexes hc'⟩
  · exact ⟨c, .other h hnot⟩

theorem LexedFor.meet (h : LexedFor c s) (r : Change) : ∃ c', LexedFor c' (r.meet s) := by
  cases r with
  | switch a new => exact h.switch a new
  | setup name force =>
    exact keeps_setupOpen (I := fun t => ∃ c', LexedFor c' t) (fun a new _ ⟨_, h⟩ => h.switch a new) name force ⟨c, h⟩

theorem LexedFor.change (h : LexedFor c s) (requests : List Change) : ∃ c', LexedFor c' (s.change requests) := by
  induction requests generalizing c s with
  | nil => exact ⟨c, h⟩
  | cons r requests ih =>
    obtain ⟨c', h'⟩ := h.meet r
    exact ih h'

end Session

/-! ## Two lexers -/

theorem Calculus.makes_signs {c : Calculus} {x : Lexer} (h : c.HasLexer x) :
    (x.making.lookup "signtrue").isSome = true ↔ c = .signed := by
  rw [h.eq_built.1]
  cases c <;> decide +kernel

/-- the calculi have different lexers -/
theorem Calculus.hasLexer_injective {c c' : Calculus} {x : Lexer} (h : c.HasLexer x) (h' : c'.HasLexer x) : c = c' := by
  have hsame := (makes_signs h).symm.trans (makes_signs h')
  cases c <;> cases c' <;> simp_all

namespace Session

variable {s : Session} {c : Calculus}

/-- **The lexer of a session follows its lexicon, and not its calculus.** Let a session start, and let plugins be
switched and setups be opened in it, whether that succeeds or fails. There is then a calculus that the lexer was made
for: the one plugged when a lexicon was last plugged, or at the start. The lexer is what would be made now exactly if
this calculus is still plugged. And a proof of a statement that passes the syntax check can be started exactly if that
needs no signs or the lexer was made for signs; otherwise a symbol of an unknown type would have to be made. -/
theorem lexer_after_changes {name : String} {files : Files} {shelf : Shelf} {catalogue : Catalogue} {draws : Draws}
    {speller : Speller}
    {s₀ s : Session} (hstart : Session.start name files shelf catalogue draws speller = .ok s₀) (requests : List Change)
    (hs : s₀.change requests = s) :
    ∃ c, LexedFor c s ∧ c.HasLexer s.lexer ∧ (∀ x, s.makeLexer = .ok x → (x = s.lexer ↔ s.calculus = .ok c)) ∧
      ∀ e text ts, s.setting = .ok e → s.lexer.tokenize text = .ok ts →
      e.calculus.checkSyntax (.ofTokens ts) = .ok none →
        ((∃ p, Proof.start e (.ofTokens ts) = .ok p) ↔ e.calculus = .unsigned ∨ c = .signed) := by
  obtain ⟨c₀, hc₀⟩ := exists_calculus (makeLexer_start hstart)
  obtain ⟨c, hc⟩ := (LexedFor.start hstart hc₀).change requests
  rw [hs] at hc
  refine ⟨c, hc, hc.hasLexer, fun x hx => ?_, fun e text ts he hts hchecked => ?_⟩
  · obtain ⟨-, c', -, -, hc', hx'⟩ := makeLexer_eq_ok_iff.1 hx
    rw [hc', Except.ok.injEq]
    constructor
    · rintro rfl
      exact hasLexer_injective (hasLexer_of_lexer? hx') hc.hasLexer
    · rintro rfl
      exact Option.some.inj (hx'.symm.trans hc.hasLexer)
  · obtain ⟨-, hlexer, -⟩ := calculus_of_setting he
    constructor
    · rintro ⟨p, hp⟩
      obtain ⟨root, hroot, -⟩ := of_bind_eq_ok hp
      cases hk : e.calculus with
      | unsigned => exact .inl rfl
      | signed =>
        rw [hk, hlexer] at hroot
        exact .inr (hasLexer_injective hc.hasLexer (hasLexer_of_prepare ⟨c, hc.hasLexer⟩ hroot))
    · intro h
      obtain ⟨root, hroot⟩ : ∃ root, e.calculus.prepare e.lexer (.ofTokens ts) = .ok root := by
        cases hk : e.calculus with
        | unsigned => exact ⟨_, rfl⟩
        | signed =>
          obtain rfl : c = .signed := h.resolve_left (by simp [hk])
          rw [hk] at hchecked
          obtain ⟨a, ha⟩ := expresses_of_tokenize hc.hasLexer hts hchecked
          obtain ⟨root, hroot, -⟩ := toNode_means hc.hasLexer ha.negate
          exact ⟨root, hlexer ▸ hroot⟩
      exact ⟨_, by simp only [Proof.start, hroot, ok_bind]; rfl⟩

/-- the calculus without signs is plugged, then a lexicon, and then the calculus with signs again -/
def toAndFro : List Change :=
  [.switch "Formal" "analytic_freedom", .switch "Lexicon" "classic", .switch "Formal" "analytic_signed"]

/-- the lexer is then the one without signs, and no proof of `p` can be started -/
theorem lexer_after_changes_to_and_fro : ∃ s₀ s e, fresh? = some s₀ ∧ s₀.change toAndFro = s ∧
    LexedFor .unsigned s ∧ s.setting = .ok e ∧ e.calculus = .signed ∧ s.makeLexer ≠ .ok s.lexer ∧
    ∃ ts, s.lexer.tokenize "p" = .ok ts ∧ e.calculus.checkSyntax (.ofTokens ts) = .ok none ∧
      ¬ ∃ p, Proof.start e (.ofTokens ts) = .ok p := by
  have hrun : (fresh?.bind fun s₀ => (s₀.change toAndFro).setting.toOption.bind fun e =>
      ((s₀.change toAndFro).lexer.tokenize "p").toOption.bind fun ts =>
        (e.calculus.checkSyntax (.ofTokens ts)).toOption.map fun wrong =>
          (e.calculus, wrong.isNone, (e.lexer.making.lookup "signtrue").isSome)) = some (.signed, true, false) := by
    decide +kernel
  simp only [Option.bind_eq_some_iff, Option.map_eq_some_iff, Prod.mk.injEq, Option.isNone_iff_eq_none] at hrun
  obtain ⟨s₀, hs₀, e, he, ts, hts, _, hchecked, hcalculus, rfl, hsigns⟩ := hrun
  replace he := eq_ok_of_toOption he
  replace hts := eq_ok_of_toOption hts
  replace hchecked := eq_ok_of_toOption hchecked
  obtain ⟨c, hc, hx, hmade, hproofs⟩ := lexer_after_changes (eq_ok_of_toOption hs₀) toAndFro rfl
  obtain ⟨hplugged, hlexer, -⟩ := calculus_of_setting he
  obtain rfl : c = .unsigned := by
    cases c with
    | unsigned => rfl
    | signed =>
      rw [hlexer, (makes_signs hx).2 rfl] at hsigns
      cases hsigns
  refine ⟨s₀, _, e, hs₀, rfl, hc, he, hcalculus, fun hmake => ?_, ts, hts, hchecked, fun hp => ?_⟩
  · cases hcalculus.symm.trans (Except.ok.inj (hplugged.symm.trans ((hmade _ hmake).1 rfl)))
  · have hwrong := (hproofs e "p" ts he hts hchecked).1 hp
    simp [hcalculus] at hwrong

end Session

end TableauTutor

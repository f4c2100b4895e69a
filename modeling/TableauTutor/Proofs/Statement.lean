import TableauTutor.Proofs.SolverStep
import TableauTutor.Session.Proving

/-!
Statements in a session. A typed statement that passes the syntax check says something, and the proof that is started
for it has one node, which says its negation.
-/

namespace TableauTutor

open Calculus ProofTree

namespace Session

variable {s : Session} {c : Calculus} {text : String} {φ : Sentence}

/-- a session works with a calculus, its lexer is the one that its plugins ask for, and there the text is a statement
that passes the syntax check of the calculus -/
structure Accepts (s : Session) (c : Calculus) (text : String) (φ : Sentence) : Prop where
  calculus : s.calculus = .ok c
  lexer : s.makeLexer = .ok s.lexer
  tokens : ∃ ts, s.lexer.tokenize text = .ok ts ∧ φ = .ofTokens ts
  checked : c.checkSyntax φ = .ok none

/-- a lexer is made for the plugged lexicon and calculus; what it makes up is picked as before -/
theorem makeLexer_eq_ok_iff {x : Lexer} : s.makeLexer = .ok x ↔
    ∃ p c, s.plugin "Lexicon" = .ok p ∧ p.role = .lexicon ∧ s.calculus = .ok c ∧ c.lexer? s.lexer.speller = some x := by
  constructor
  · intro h
    obtain ⟨p, hp, h⟩ := of_bind_eq_ok h
    obtain ⟨c, hc, h⟩ := of_bind_eq_ok h
    refine ⟨p, c, hp, ?_⟩
    split at h
    · rename_i hrole hx
      exact ⟨hrole, hc, by rw [hx, Except.ok.inj h]⟩
    · cases h
  · rintro ⟨p, c, hp, hrole, hc, hx⟩
    simp only [makeLexer, hp, hc, ok_bind, hrole, hx]
    rfl

theorem makeLexer_made {x : Lexer} (h : s.makeLexer = .ok x) : makeLexer { s with lexer := x } = .ok x := by
  obtain ⟨p, c, hp, hrole, hc, hx⟩ := makeLexer_eq_ok_iff.1 h
  exact makeLexer_eq_ok_iff.2 ⟨p, c, hp, hrole, hc, hasLexer_of_lexer? hx⟩

theorem hasLexer_of_makeLexer {x : Lexer} (h : s.makeLexer = .ok x) (hc : s.calculus = .ok c) : c.HasLexer x := by
  obtain ⟨-, c', -, -, hc', hx⟩ := makeLexer_eq_ok_iff.1 h
  obtain rfl := Except.ok.inj (hc.symm.trans hc')
  exact hasLexer_of_lexer? hx

/-- a session has the lexer that its plugins ask for when it starts -/
theorem makeLexer_start {name : String} {files : Files} {shelf : Shelf} {catalogue : Catalogue} {draws : Draws}
    {speller : Speller} (h : start name files shelf catalogue draws speller = .ok s) : s.makeLexer = .ok s.lexer := by
  simp only [start] at h
  -- the file is there, or it is written first; then it is read
  split at h <;>
  · obtain ⟨files, -, h⟩ := of_bind_eq_ok h
    obtain ⟨datum, -, h⟩ := of_bind_eq_ok h
    obtain ⟨config, -, h⟩ := of_bind_eq_ok h
    obtain ⟨sockets, -, h⟩ := of_bind_eq_ok h
    obtain ⟨lexer, hlexer, h⟩ := of_bind_eq_ok h
    obtain rfl := Except.ok.inj h
    exact makeLexer_made hlexer

/-- what is typed and passes the syntax check says something -/
theorem expresses_of_tokenize {x : Lexer} {ts : List Token} (hx : c.HasLexer x) (hts : x.tokenize text = .ok ts)
    (h : c.checkSyntax (.ofTokens ts) = .ok none) : ∃ a, (Sentence.ofTokens ts).Expresses a := by
  have hin := inLanguage_of_tokenize hx hts h
  rw [← Sentence.checkSyntax_iff_expresses hin, ← checkSyntax_eq hin]
  exact h

theorem generate_sign_error {x : Lexer} (hx : unsigned.HasLexer x) (s : Sentence) {kind : String}
    (hkind : kind = "signtrue" ∨ kind = "signfalse") (y : Symbol) : s.generate x kind ≠ .ok y := by
  have hmaking : x.making.lookup kind = none := by
    rw [hx.eq_built.1]
    rcases hkind with rfl | rfl <;> decide +kernel
  intro h
  simp only [Sentence.generate, Lexer.generate, hmaking, Except.map, Outcome.ofLexicon] at h
  cases h

/-- a proof in the calculus with signs starts only with its own lexer -/
theorem hasLexer_of_prepare {x : Lexer} (hx : ∃ c : Calculus, c.HasLexer x) {st root : Sentence}
    (h : signed.prepare x st = .ok root) : signed.HasLexer x := by
  obtain ⟨c, hx⟩ := hx
  cases c with
  | signed => exact hx
  | unsigned =>
    exfalso
    obtain ⟨k, -, h⟩ := of_bind_eq_ok h
    cases k with
    | none =>
      obtain ⟨y, hy, -⟩ := of_bind_eq_ok h
      exact generate_sign_error hx _ (.inl rfl) y hy
    | some k =>
      dsimp only at h
      split at h
      · obtain ⟨y, hy, -⟩ := of_bind_eq_ok h
        exact generate_sign_error hx _ (.inr rfl) y hy
      · obtain ⟨y, hy, -⟩ := of_bind_eq_ok h
        exact generate_sign_error hx _ (.inl rfl) y hy

namespace Accepts

/-- what proofs in the session are made with -/
def setting (s : Session) (c : Calculus) : Setting := ⟨c, s.lexer, s.config.accessibility⟩

theorem setting_eq (h : s.Accepts c text φ) : s.setting = .ok (setting s c) := by
  simp only [Session.setting, h.calculus, ok_bind, pure_ok]
  rfl

theorem hasLexer (h : s.Accepts c text φ) : c.HasLexer s.lexer := hasLexer_of_makeLexer h.lexer h.calculus

/-- **A statement says something.** -/
theorem expresses (h : s.Accepts c text φ) : ∃ a, φ.Expresses a := by
  obtain ⟨ts, hts, rfl⟩ := h.tokens
  exact expresses_of_tokenize h.hasLexer hts h.checked

end Accepts

def excludedMiddle : Sentence := [.of "sentvar" "p", .of "or" "v", .of "not" "~", .of "sentvar" "p"]

/-- a session with nothing but the signed calculus and the lexicon plugged -/
def signedSession : Session :=
  { configName := "", config := .initial, shelf := {}, lexer := (signed.lexer? .orderly).getD {}
    files := freshFiles "" none, sockets := [("Formal", plugged (.calculus .signed)), ("Lexicon", plugged .lexicon)] }
where
  plugged (role : Role) : Socket := { name := "", place := .nowhere, version := [], plugin := some { role } }

theorem signedSession_accepts : signedSession.Accepts .signed "p v ~p" excludedMiddle := by
  have hread : ((signed.lexer? .orderly).bind fun x => (x.tokenize "p v ~p").toOption.map fun ts =>
      decide (excludedMiddle = .ofTokens ts)) = some true := by decide +kernel
  have hpass : (signed.checkSyntax excludedMiddle).toOption.map Option.isNone = some true := by decide +kernel
  simp only [Option.bind_eq_some_iff, Option.map_eq_some_iff, decide_eq_true_eq] at hread
  obtain ⟨x, hx, ts, hts, heq⟩ := hread
  have hchecked : signed.checkSyntax excludedMiddle = .ok none := by
    obtain ⟨m, hm, hnone⟩ := Option.map_eq_some_iff.1 hpass
    rw [eq_ok_of_toOption hm, Option.isNone_iff_eq_none.1 hnone]
  have hcalculus : signedSession.calculus = .ok .signed := rfl
  have hsame : signedSession.lexer = x := by rw [signedSession, hx, Option.getD_some]
  have hlexer : signedSession.makeLexer = .ok signedSession.lexer := by
    rw [hsame]
    exact makeLexer_eq_ok_iff.2 ⟨{ role := .lexicon }, .signed, rfl, rfl, hcalculus,
      by rw [hsame]; exact hasLexer_of_lexer? hx⟩
  exact ⟨hcalculus, hlexer, ⟨ts, hsame ▸ eq_ok_of_toOption hts, heq⟩, hchecked⟩

theorem exists_accepts : ∃ s : Session, s.Accepts .signed "p v ~p" excludedMiddle :=
  ⟨signedSession, signedSession_accepts⟩

theorem exec_withProof {α : Type} {x : Setting → Work α} {e : Setting} {p p' : Proof} {r : Outcome α}
    (he : s.setting = .ok e)
    (hp : s.proof = some p) (hx : exec (x e) p = (r, p')) :
    exec (withProof x) s = (r, { s with proof := some p' }) := by
  simp only [withProof, exec_bind, exec_get, hp, exec_lift, he]
  rw [exec] at hx
  rw [hx]
  simp only [exec_bind, exec_set, exec_lift]

/-- **A proof that was started**: the text was read and passed the syntax check, the root was made for it, and its
branch was closed if there was reason to. -/
theorem newProof_eq_ok {s₁ : Session} (h : exec (newProof text) s = (.ok none, s₁)) :
    ∃ ts e p, s.lexer.tokenize text = .ok ts ∧ s.setting = .ok e ∧ e.calculus.checkSyntax (.ofTokens ts) = .ok none ∧
      Proof.start e (.ofTokens ts) = .ok p ∧
      s₁ = { s with proof := some (exec (Proof.dealClosure e p.branch) p).2 } := by
  rw [newProof, exec_bind, exec_get] at h
  dsimp only at h
  cases htokens : s.lexer.tokenize text with
  | error f =>
    rw [htokens] at h
    cases h
  | ok ts =>
    rw [htokens] at h
    simp only [pure_bind] at h
    obtain ⟨c, hc, h⟩ := exists_of_exec_lift h
    obtain ⟨_ | m, hchecked, h⟩ := exists_of_exec_lift h
    · obtain ⟨e, he, h⟩ := exists_of_exec_lift h
      obtain ⟨p, hp, h⟩ := exists_of_exec_lift h
      have hcalculus : c = e.calculus := by
        obtain ⟨c', hc', he⟩ := of_bind_eq_ok he
        rw [← Except.ok.inj he]
        exact Except.ok.inj (hc.symm.trans hc')
      refine ⟨ts, e, p, rfl, he, hcalculus ▸ hchecked, hp, ?_⟩
      have hset : Session.setting { s with proof := some p } = .ok e := he
      rw [exec_bind, exec_set, dealClosure] at h
      rcases hrun : exec (Proof.dealClosure e p.branch) p with ⟨r, p'⟩
      have hclose := exec_withProof (x := fun e => Proof.dealClosure e p.branch) hset rfl hrun
      simp only [exec_bind, hclose] at h
      cases r with
      | error f => cases h
      | ok r => exact (Prod.mk.inj h).2.symm
    · obtain ⟨a, -, h⟩ := exists_of_exec_lift h
      cases h

/-- the proof that is started for a statement: its root is closed if there is reason to -/
def startedProof (c : Calculus) (φ root : Sentence) (name : String) : Proof :=
  { statement := φ, branch := name
    tree := .node (Node.close (c.verdict [root] {}) { sentence := root, branch := name }) [] }

/-- **Starting a proof.** The root says the negation of what the statement says. -/
theorem exec_newProof (h : s.Accepts c text φ) : ∃ a root name, φ.Expresses a ∧ c.Means root (.neg a) ∧
    exec (newProof text) s = (.ok none, { s with proof := some (startedProof c φ root name) }) := by
  obtain ⟨a, ha⟩ := h.expresses
  obtain ⟨root, hroot, hmeans⟩ := toNode_means h.hasLexer ha.negate
  obtain ⟨ts, hts, rfl⟩ := h.tokens
  let name := (branchNames s.config.accessibility []).headD ""
  let p : Proof := { statement := .ofTokens ts, tree := .root root name, branch := name }
  refine ⟨a, root, name, ha, hmeans, ?_⟩
  have hstart : Proof.start (Accepts.setting s c) (.ofTokens ts) = .ok p := by
    simp only [Proof.start, prepare, Accepts.setting, hroot, ok_bind, pure_ok]
    rfl
  have hplug : p.tree = plug [] (.node { sentence := root, branch := name } []) := rfl
  have hsane : Sane (Accepts.setting s c).calculus p.tree := .root ⟨_, hmeans⟩ name
  obtain ⟨r, hdeal, -⟩ := Proof.exec_dealClosure_plug hsane hplug
  have hset : Session.setting { s with proof := some p } = .ok (Accepts.setting s c) := h.setting_eq
  have hclose := exec_withProof (x := fun e => Proof.dealClosure e name) hset rfl hdeal
  simp only [newProof, exec_bind, exec_get, hts, exec_pure, exec_lift, h.calculus, h.checked, h.setting_eq,
    hstart, exec_set]
  rw [dealClosure]
  simp only [exec_bind]
  rw [show p.branch = name from rfl, hclose]
  simp only [exec_pure]
  rfl

end Session

end TableauTutor

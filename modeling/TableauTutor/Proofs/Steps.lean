import Mathlib.Logic.Relation
import TableauTutor.Proofs.Justified
import TableauTutor.Proofs.Statement

/-!
Work on the proof of a session, in steps. Whatever is asked of a session about its proof, and however it ends, the proof
goes through steps of few kinds: a rule is used, a branch is closed, another branch is gone to, the solver runs, or the
last moves are taken back. What steps keep is kept by everything that is asked.

- `Step.change_lexer`: without signs, no step needs the lexer.
- `Step.orderly`, `Step.sound`: what every step keeps.
- `keeps_useRule`, `keeps_undo`, …: requests are made of steps.
-/

namespace TableauTutor

open ProofTree Calculus

/-! ## Lexers -/

namespace Calculus

theorem unsigned_useRule (x y : Lexer) : unsigned.useRule x = unsigned.useRule y := by
  have hnaive (m : Method) (branch : List Sentence) (numbers : List Int) :
      unsigned.naive x m branch numbers = unsigned.naive y m branch numbers := by
    unfold naive
    split <;> rfl
  funext rule branch used context
  simp only [useRule, hnaive]

/-- rules can be used as if with the lexer of the calculus; signs have to be in the lexer if they are used -/
theorem exists_lexer_useRule {c : Calculus} {x : Lexer} (h : c = .signed → c.HasLexer x) :
    ∃ y, c.HasLexer y ∧ c.useRule x = c.useRule y := by
  cases c with
  | signed => exact ⟨x, h rfl, rfl⟩
  | unsigned =>
    obtain ⟨y, hy⟩ := unsigned.exists_lexer
    exact ⟨y, hy, unsigned_useRule x y⟩

end Calculus

namespace Proof

section Lexer

variable (x y : Lexer) (level : Int)

theorem useOn_lexer : useOn ⟨.unsigned, x, level⟩ = useOn ⟨.unsigned, y, level⟩ := by
  funext rule context branch
  simp only [useOn, unsigned_useRule x y]
  rfl

theorem advance_lexer : advance ⟨.unsigned, x, level⟩ = advance ⟨.unsigned, y, level⟩ := rfl

theorem exhaust_lexer : exhaust ⟨.unsigned, x, level⟩ = exhaust ⟨.unsigned, y, level⟩ := by
  funext rule fuel
  induction fuel with
  | zero => rfl
  | succ fuel ih =>
    funext closed a
    simp only [exhaust, ih, advance_lexer x y]

theorem saturate_lexer : saturate ⟨.unsigned, x, level⟩ = saturate ⟨.unsigned, y, level⟩ := by
  funext bound rules fuel
  induction fuel with
  | zero => rfl
  | succ fuel ih =>
    funext a
    simp only [saturate, propagate, ih, exhaust_lexer x y]

theorem tryRules_lexer : tryRules ⟨.unsigned, x, level⟩ = tryRules ⟨.unsigned, y, level⟩ := by
  funext bound tried rest
  induction rest generalizing tried with
  | nil => rfl
  | cons rule rest ih =>
    funext a
    simp only [tryRules, ih, saturate_lexer x y]

theorem solve_lexer : solve ⟨.unsigned, x, level⟩ = solve ⟨.unsigned, y, level⟩ := by
  simp only [solve, tryRules_lexer x y]
  rfl

end Lexer

end Proof

/-! ## Steps of a proof -/

namespace Proof

/-- one step of a proof -/
inductive Step (e : Setting) : Proof → Proof → Prop
  | use (rule : String) (context : Context) (b : String) (p : Proof) : Step e p (exec (useOn e rule context b) p).2
  | close (b : String) (p : Proof) : Step e p (exec (dealClosure e b) p).2
  | goTo (b : String) (p : Proof) : Step e p { p with branch := b }
  | solve (p : Proof) : Step e p (exec (solve e) p).2
  | undo {p : Proof} {kept rest : List UsedRule} {k : Int} (b : String) (hused : p.used = kept ++ rest)
      (hfirst : ∃ u ∈ rest, u.layer = k) (hleast : ∀ u ∈ rest, k ≤ u.layer) :
      Step e p { p with used := kept, tree := p.tree.prune k, branch := b }

/-- any number of steps -/
def Steps (e : Setting) : Proof → Proof → Prop := Relation.ReflTransGen (Step e)

variable {e : Setting} {p p' : Proof} {R : ProofTree → UsedRule → ProofTree → Prop} {M : List Sentence → Closing → Prop}
  {st root : Sentence} {name : String}

/-- the moves that are taken back are the last ones -/
theorem Orderly.undo {start : List UsedRule} (h : Orderly R M st root name start p) {kept rest : List UsedRule}
    (hused : p.used = kept ++ rest) {k : Int} (hfirst : ∃ u ∈ rest, u.layer = k) (hleast : ∀ u ∈ rest, k ≤ u.layer)
    (hstart : start <+: kept) (b : String) :
    Orderly R M st root name start { p with used := kept, tree := p.tree.prune k, branch := b } := by
  refine h.prune hused (fun v hv => ?_) hleast hstart b
  obtain ⟨u, hu, rfl⟩ := hfirst
  have hsorted := h.layers.1
  rw [hused] at hsorted
  exact (List.pairwise_append.1 hsorted).2.2 v hv u hu

/-- **Every step** keeps a proof in order. -/
theorem Step.orderly (hR : MovesBy R e) (hauto : SolvesBy R) (hM : ClosesBy M e.calculus)
    (h : Step e p p') (hp : Orderly R M st root name [] p) : Orderly R M st root name [] p' := by
  cases h with
  | use rule context b => exact keeps_useOn hR rule context b p hp
  | close b => exact keeps_dealClosure hM b p hp
  | goTo b => exact hp.goTo b
  | solve => exact keeps_solve hauto hM p hp
  | undo b hused hfirst hleast => exact hp.undo hused hfirst hleast (List.nil_prefix) b

/-- **Without signs** a step can be made with any lexer. -/
theorem Step.change_lexer {x : Lexer} {level : Int} (h : Step ⟨.unsigned, x, level⟩ p p') (y : Lexer) :
    Step ⟨.unsigned, y, level⟩ p p' := by
  cases h with
  | use rule context b =>
    rw [useOn_lexer x y]
    exact .use rule context b p
  | close b => exact .close b p
  | goTo b => exact .goTo b p
  | solve =>
    rw [solve_lexer x y]
    exact .solve p
  | undo b hused hfirst hleast => exact .undo b hused hfirst hleast

/-- **Every step** keeps a proof sound; signs have to be in the lexer if they are used. -/
theorem Step.sound (hsigned : e.calculus = .signed → e.HasLexer) (h : Step e p p')
    (hp : Sound e.calculus st root name [] p) : Sound e.calculus st root name [] p' := by
  obtain ⟨e', hc, hx, h⟩ : ∃ e' : Setting, e'.calculus = e.calculus ∧ e'.HasLexer ∧ Step e' p p' := by
    obtain ⟨y, hy, -⟩ := exists_lexer_useRule hsigned
    obtain ⟨c, x, level⟩ := e
    cases c with
    | signed => exact ⟨_, rfl, hsigned rfl, h⟩
    | unsigned => exact ⟨⟨.unsigned, y, level⟩, rfl, hy, h.change_lexer y⟩
  rw [← hc] at hp ⊢
  cases h with
  | use rule context b =>
    exact ⟨keeps_useOn_sane hx rule context b p hp.sane, keeps_useOn (movesBy_justified hx) rule context b p hp.orderly⟩
  | close b => exact keeps_dealClosure_sound b p hp
  | goTo b => exact ⟨hp.sane, hp.orderly.goTo b⟩
  | solve => exact keeps_solve_sound hx p hp
  | undo b hused hfirst hleast =>
    have horderly := hp.orderly.undo hused hfirst hleast (List.nil_prefix) b
    exact ⟨sane_prune hp.sane horderly.names, horderly⟩

theorem Steps.induct {I : Proof → Prop} (h : Steps e p p') (hstep : ∀ {p p'}, Step e p p' → I p → I p') (hp : I p) :
    I p' := by
  induction h with
  | refl => exact hp
  | tail _ hlast ih => exact hstep hlast ih

end Proof

/-! ## Requests of a session -/

namespace Session

open Proof

variable {s : Session} {e : Setting} {p : Proof} {α β : Type}

/-- the session after steps of its proof; apart from the proof, only the record of what was undone may have changed -/
def Within (s : Session) (e : Setting) (p : Proof) (t : Session) : Prop :=
  ∃ p' n u, Steps e p p' ∧ t = { s with proof := some p', undoCount := n, undone := u }

theorem Within.refl (hp : s.proof = some p) : s.Within e p s :=
  ⟨p, s.undoCount, s.undone, .refl, by rw [← hp]⟩

theorem keeps_withProof (he : s.setting = .ok e) {x : Setting → Work α} (hx : ∀ q, Steps e q (exec (x e) q).2) :
    Keeps (s.Within e p) (withProof x) := by
  rintro _ ⟨p', n, u, hsteps, rfl⟩
  have hset : Session.setting { s with proof := some p', undoCount := n, undone := u } = .ok e := he
  rcases hrun : exec (x e) p' with ⟨r, p''⟩
  rw [exec_withProof hset rfl hrun]
  have := hx p'
  rw [hrun] at this
  exact ⟨p'', n, u, hsteps.trans this, rfl⟩

theorem keeps_dealClosure (he : s.setting = .ok e) (b : String) : Keeps (s.Within e p) (dealClosure b) :=
  (keeps_withProof he fun q => .single (.close b q)).bind fun _ => .pure _

theorem keeps_next (he : s.setting = .ok e) : Keeps (s.Within e p) next := by
  refine keeps_withProof he fun q => ?_
  obtain ⟨b, hb⟩ := next_frame q
  rw [hb]
  exact .single (.goTo b q)

theorem keeps_jump (he : s.setting = .ok e) (target : String) : Keeps (s.Within e p) (jump target) := by
  refine keeps_withProof he fun q => ?_
  obtain ⟨b, hb⟩ := jump_frame target q
  rw [hb]
  exact .single (.goTo b q)

theorem keeps_solve (he : s.setting = .ok e) : Keeps (s.Within e p) solve := by
  refine (keeps_withProof he fun q => .single (.solve q)).bind fun done => .ite ?_ (.pure _)
  exact Keeps.get.bind fun t => (Keeps.lift _).bind fun q => .pure _

/-- what using a rule on any branch of the proof keeps is kept by a request to use it -/
theorem keeps_useRule_of {I : Session → Prop} {rule : String} {context : Context}
    (h : ∀ b, Keeps I (withProof fun e => Proof.useOn e rule context b)) : Keeps I (useRule rule context) := by
  refine Keeps.get.bind fun t => (Keeps.lift _).bind fun q => (Keeps.lift _).bind fun c => ?_
  cases c.rule? rule with
  | none => exact .throw _
  | some r =>
    refine .ite (.throw _) (.tryCatch ((h _).bind fun _ => .pure _) fun f => ?_)
    cases f with
    | mistake m => exact .ite ((Keeps.lift _).bind fun _ => .pure _) (.pure _)
    | _ => exact .throw _

theorem keeps_useRule (he : s.setting = .ok e) (rule : String) (context : Context) :
    Keeps (s.Within e p) (useRule rule context) :=
  keeps_useRule_of fun b => keeps_withProof he fun q => .single (.use rule context b q)

/-- **Moves taken back**: what is asked for must be there; nothing happens to the proof if nothing is asked for. -/
theorem exec_undo (hp : s.proof = some p) (amount : Int) :
    exec (undo amount) s =
      if (p.used.length : Int) < amount then (.error (.refusal .nothingToUndo), s)
      else
        let kept := p.used.take (p.used.length - amount.toNat)
        let undone := (p.used.drop (p.used.length - amount.toNat)).reverse
        let t : Session := { s with
          proof := some { p with used := kept }, undoCount := s.undoCount + amount, undone := some undone }
        match (undone.map (·.layer)).min? with
        | none => (.error (.badValue "no move was taken back"), t)
        | some layer => (.ok undone, { t with proof := some { p with
            used := kept, tree := p.tree.prune layer
            branch := ((kept.getLast?).map (·.branch)).getD (p.tree.prune layer).data.branch } }) := by
  simp only [undo, exec_bind, exec_get, currentProof, hp, exec_lift, pure_ok]
  split
  · rfl
  · simp only [exec_bind, exec_set]
    generalize (((p.used.drop (p.used.length - amount.toNat)).reverse).map (·.layer)).min? = m
    cases m <;> rfl

theorem undo_frame (hp : s.proof = some p) (amount : Int) : ∃ p' n u, (exec (undo amount) s).2 =
    { s with proof := some p', undoCount := n, undone := u } ∧ (p' = p ∨ ∃ kept rest k, p.used = kept ++ rest ∧
      (∃ v ∈ rest, v.layer = k) ∧ (∀ v ∈ rest, k ≤ v.layer) ∧ p' = { p with
        used := kept, tree := p.tree.prune k, branch := ((kept.getLast?).map (·.branch)).getD
          (p.tree.prune k).data.branch }) := by
  rw [exec_undo hp]
  split
  · exact ⟨p, s.undoCount, s.undone, by rw [← hp], .inl rfl⟩
  simp only
  have hused := (List.take_append_drop (p.used.length - amount.toNat) p.used).symm
  generalize p.used.take (p.used.length - amount.toNat) = kept at hused ⊢
  generalize p.used.drop (p.used.length - amount.toNat) = rest at hused ⊢
  split
  · -- nothing is taken back
    rename_i hnone
    obtain rfl : rest = [] := by simpa using hnone
    rw [List.append_nil] at hused
    exact ⟨_, _, _, rfl, .inl (by rw [← hused])⟩
  · rename_i layer hlayer
    obtain ⟨hmem, hleast⟩ := List.min?_eq_some_iff.1 hlayer
    obtain ⟨v, hv, hvl⟩ := List.mem_map.1 hmem
    refine ⟨_, _, _, rfl, .inr ⟨kept, rest, layer, hused, ⟨v, by simpa using hv, hvl⟩, fun w hw => ?_, rfl⟩⟩
    exact hleast _ (List.mem_map_of_mem (by simpa using hw))

theorem keeps_undo (amount : Int) : Keeps (s.Within e p) (undo amount) := by
  rintro _ ⟨p', n, u, hsteps, rfl⟩
  obtain ⟨q, m, v, heq, rfl | ⟨kept, rest, k, hused, hfirst, hleast, rfl⟩⟩ :=
    undo_frame (s := { s with proof := some p', undoCount := n, undone := u }) rfl amount
  · exact ⟨q, m, v, hsteps, heq⟩
  · exact ⟨_, m, v, hsteps.tail (.undo _ hused hfirst hleast), heq⟩

/-- a change of the colours changes the configuration and its file -/
theorem changeAccessibility_frame (level : Int) (s : Session) : ∃ files, (exec (changeAccessibility level) s).2 =
    { s with config := { s.config with accessibility := level }, files } := by
  simp only [changeAccessibility, exec_bind, exec_modify, writeConfig, exec_get, exec_lift]
  generalize Files.write _ _ _ = r
  cases r with
  | error f => exact ⟨_, rfl⟩
  | ok files => exact ⟨files, rfl⟩

end Session

end TableauTutor

import Mathlib.Data.List.Forall2
import TableauTutor.Fault

/-!
Computations. Those of one kind only succeed or fail; those of the other kind also change a state, and leave it changed
when they fail. `exec` gives what comes out of a computation and the state that it leaves, and follows it step by step.
What a computation does to all states that have something in common is told by `Keeps`, by `KeepsSmooth` if it is kept
as long as nothing breaks down, and by `Yields` if it is also known what comes out.
-/

namespace TableauTutor

/-! ## Computations that may fail -/

section Except

variable {ε α β γ δ : Type}

@[simp] theorem ok_bind (a : α) (f : α → Except ε β) : (.ok a : Except ε α) >>= f = f a := rfl

@[simp] theorem error_bind (e : ε) (f : α → Except ε β) : (.error e : Except ε α) >>= f = .error e := rfl

theorem pure_ok (a : α) : (pure a : Except ε α) = .ok a := rfl

theorem of_bind_eq_ok {x : Except ε α} {f : α → Except ε β} {b : β} (h : x >>= f = .ok b) :
    ∃ a, x = .ok a ∧ f a = .ok b := by
  cases x with
  | error e => cases h
  | ok a => exact ⟨a, rfl, h⟩

theorem of_map_eq_ok {x : Except ε α} {f : α → β} {b : β} (h : f <$> x = .ok b) :
    ∃ a, x = .ok a ∧ f a = b := by
  cases x with
  | error e => cases h
  | ok a => exact ⟨a, rfl, Except.ok.inj h⟩

theorem forall₂_of_mapM {f : α → Except ε β} {as : List α} {bs : List β} (h : as.mapM f = .ok bs) :
    List.Forall₂ (fun a b => f a = .ok b) as bs := by
  induction as generalizing bs with
  | nil =>
    obtain rfl : [] = bs := Except.ok.inj h
    exact .nil
  | cons a as ih =>
    rw [List.mapM_cons] at h
    obtain ⟨b, hb, h⟩ := of_bind_eq_ok h
    obtain ⟨bs', hbs, h⟩ := of_bind_eq_ok h
    obtain rfl := Except.ok.inj h
    exact .cons hb (ih hbs)

theorem eq_ok_of_toOption {x : Except ε α} {a : α} (h : x.toOption = some a) : x = .ok a := by
  cases x with
  | error e => cases h
  | ok b => exact congrArg _ (Option.some.inj h)

theorem mapM_of_forall₂ {f : α → Except ε β} {P : α → γ → Prop} {Q : β → γ → Prop}
    {as : List α} {cs : List γ} (h : List.Forall₂ P as cs) (hf : ∀ a c, P a c → ∃ b, f a = .ok b ∧ Q b c) :
    ∃ bs, as.mapM f = .ok bs ∧ List.Forall₂ Q bs cs := by
  induction h with
  | nil => exact ⟨[], rfl, .nil⟩
  | cons h _ ih =>
    obtain ⟨b, hb, hq⟩ := hf _ _ h
    obtain ⟨bs, hbs, hall⟩ := ih
    exact ⟨b :: bs, by simp [hb, hbs, pure_ok], .cons hq hall⟩

theorem mapM_congr {f g : α → Except ε β} {as : List α} (h : ∀ a ∈ as, f a = g a) : as.mapM f = as.mapM g := by
  induction as with
  | nil => rfl
  | cons a as ih =>
    obtain ⟨hfirst, hrest⟩ := List.forall_mem_cons.1 h
    rw [List.mapM_cons, List.mapM_cons, hfirst, ih hrest]

theorem mapM_map_eq_ok {f : α → Except ε β} {g : γ → Except ε δ} {i : α → γ} {j : β → δ}
    (h : ∀ a b, f a = .ok b → g (i a) = .ok (j b)) {as : List α} {bs : List β} (has : as.mapM f = .ok bs) :
    (as.map i).mapM g = .ok (bs.map j) := by
  replace has := forall₂_of_mapM has
  induction has with
  | nil => rfl
  | cons hb _ ih =>
    rw [List.map_cons, List.mapM_cons, h _ _ hb, ih]
    rfl

theorem getElem?_of_mapM {f : α → Except ε β} {as : List α} {bs : List β} (h : as.mapM f = .ok bs) {k : Nat}
    {b : β} (hb : bs[k]? = some b) : ∃ a, as[k]? = some a ∧ f a = .ok b := by
  replace h := forall₂_of_mapM h
  induction h generalizing k with
  | nil => simp at hb
  | cons hb' _ ih =>
    cases k with
    | zero => exact ⟨_, rfl, by rw [hb']; simpa using hb⟩
    | succ k => exact ih (by simpa using hb)

theorem exists_mapM {f : α → Except ε β} {as : List α} (h : ∀ a ∈ as, ∃ b, f a = .ok b) :
    ∃ bs, as.mapM f = .ok bs ∧ ∀ a ∈ as, ∃ b ∈ bs, f a = .ok b := by
  induction as with
  | nil => exact ⟨[], rfl, by simp⟩
  | cons a as ih =>
    obtain ⟨hfirst, hrest⟩ := List.forall_mem_cons.1 h
    obtain ⟨b, hb⟩ := hfirst
    obtain ⟨bs, hbs, hall⟩ := ih hrest
    refine ⟨b :: bs, by simp [hb, hbs, pure_ok], List.forall_mem_cons.2 ⟨⟨b, by simp, hb⟩, ?_⟩⟩
    intro a' ha'
    obtain ⟨b', hb', heq⟩ := hall a' ha'
    exact ⟨b', List.mem_cons_of_mem _ hb', heq⟩

end Except

/-- nothing in the program takes the fault up: it is neither a refusal nor a mistake of the person -/
def Fault.breaks : Fault → Bool
  | .refusal _ | .mistake _ => false
  | _ => true

namespace Outcome

variable {α β : Type}

/-- the operation did not break down -/
def Smooth (r : Outcome α) : Prop := ∀ f, r = .error f → f.breaks = false

/-- the operation fails only by breaking down -/
def Abrupt (r : Outcome α) : Prop := ∀ f, r = .error f → f.breaks = true

theorem smooth_ok (a : α) : Smooth (.ok a) := fun _ h => by cases h

namespace Abrupt

theorem ok (a : α) : Abrupt (.ok a) := fun _ h => by cases h

theorem error {f : Fault} (h : f.breaks = true) : Abrupt (.error f : Outcome α) := by
  intro g hg
  rwa [← Except.error.inj hg]

theorem bind {x : Outcome α} {f : α → Outcome β} (hx : x.Abrupt) (hf : ∀ a, (f a).Abrupt) : (x >>= f).Abrupt := by
  cases x with
  | error g => exact error (hx g rfl)
  | ok a => exact hf a

theorem ofFormula (x : Except FormulaError α) : (Outcome.ofFormula x).Abrupt := by
  cases x with
  | error e => exact error rfl
  | ok a => exact ok a

theorem ofLexicon (x : Except LexiconError α) : (Outcome.ofLexicon x).Abrupt := by
  cases x with
  | error e => exact error rfl
  | ok a => exact ok a

theorem not_smooth {f : Fault} (h : Abrupt (.error f : Outcome α)) : ¬ Smooth (.error f : Outcome β) := by
  intro hsmooth
  have := hsmooth f rfl
  rw [h f rfl] at this
  cases this

end Abrupt

end Outcome

section State

variable {σ α β : Type} {c : Prop} {I J : σ → Prop}

/-! ## Running a computation with a state -/

/-- computations that may fail and that change a state -/
abbrev Effect (σ : Type) := ExceptT Fault (StateM σ)

/-- the outcome of a computation and the state it leaves -/
def exec (x : ExceptT Fault (StateM σ) α) (s : σ) : Outcome α × σ := x.run.run s

@[simp] theorem exec_pure (a : α) (s : σ) : exec (pure a : Effect σ α) s = (.ok a, s) := rfl

@[simp] theorem exec_throw (f : Fault) (s : σ) : exec (throw f : Effect σ α) s = (.error f, s) := rfl

@[simp] theorem exec_lift (x : Outcome α) (s : σ) : exec (Outcome.lift x : Effect σ α) s = (x, s) := rfl

@[simp] theorem exec_get (s : σ) : exec (get : Effect σ σ) s = (.ok s, s) := rfl

@[simp] theorem exec_set (s t : σ) : exec (set t : Effect σ PUnit) s = (.ok (), t) := rfl

@[simp] theorem exec_modify (f : σ → σ) (s : σ) :
    exec (modify f : Effect σ PUnit) s = (.ok (), f s) := rfl

theorem exec_bind (x : Effect σ α) (f : α → Effect σ β) (s : σ) :
    exec (x >>= f) s =
      match exec x s with
      | (.ok a, t) => exec (f a) t
      | (.error e, t) => (.error e, t) := by
  unfold exec ExceptT.run StateT.run
  simp only [bind, ExceptT.bind, ExceptT.mk, ExceptT.bindCont, StateT.bind]
  rcases x s with ⟨_ | _, t⟩ <;> rfl

theorem exists_of_exec_lift {x : Outcome α} {f : α → Effect σ β} {s t : σ} {b : β}
    (h : exec (Outcome.lift x >>= f) s = (.ok b, t)) : ∃ a, x = .ok a ∧ exec (f a) s = (.ok b, t) := by
  rw [exec_bind, exec_lift] at h
  cases x with
  | error e => cases h
  | ok a => exact ⟨a, rfl, h⟩

theorem exec_bind_ok {x : Effect σ α} {f : α → Effect σ β} {s t : σ} {a : α}
    (h : exec x s = (.ok a, t)) : exec (x >>= f) s = exec (f a) t := by
  rw [exec_bind, h]

theorem exec_bind_error {x : Effect σ α} {f : α → Effect σ β} {s t : σ} {e : Fault}
    (h : exec x s = (.error e, t)) : exec (x >>= f) s = (.error e, t) := by
  rw [exec_bind, h]

theorem exec_tryCatch (x : Effect σ α) (h : Fault → Effect σ α) (s : σ) :
    exec (tryCatch x h) s =
      match exec x s with
      | (.ok a, t) => (.ok a, t)
      | (.error e, t) => exec (h e) t := by
  unfold exec ExceptT.run StateT.run
  simp only [tryCatch, tryCatchThe, MonadExceptOf.tryCatch, ExceptT.tryCatch, ExceptT.mk, bind, StateT.bind]
  rcases x s with ⟨_ | _, t⟩ <;> rfl

/-- the state that a computation leaves if it succeeds -/
def finalState (x : ExceptT Fault (StateM σ) PUnit) (s : σ) : Outcome σ :=
  match exec x s with
  | (.ok (), s) => .ok s
  | (.error f, _) => .error f

theorem finalState_eq_ok_iff {x : Effect σ PUnit} {s t : σ} : finalState x s = .ok t ↔ exec x s = (.ok (), t) := by
  unfold finalState
  rcases exec x s with ⟨_ | _, u⟩ <;> simp

theorem foldlM_finalState (f : α → Effect σ PUnit) (l : List α) (s : σ) :
    l.foldlM (fun s a => finalState (f a) s) s = finalState (l.forM f) s := by
  induction l generalizing s with
  | nil => rfl
  | cons a l ih =>
    change (finalState (f a) s >>= fun s => l.foldlM (fun s a => finalState (f a) s) s) =
      finalState (f a >>= fun _ => l.forM f) s
    rw [finalState, finalState, exec_bind]
    rcases exec (f a) s with ⟨_ | _, u⟩
    · rfl
    · exact ih u

theorem exec_discard_snd (x : Effect σ α) (s : σ) : (exec (do let _ ← x) s).2 = (exec x s).2 := by
  rw [exec_bind]
  rcases exec x s with ⟨_ | _, t⟩ <;> rfl

/-! ## Computations that keep something -/

/-- what is said of the state before the computation can be said after it, whatever comes out -/
def Keeps (I : σ → Prop) (x : ExceptT Fault (StateM σ) α) : Prop := ∀ s, I s → I (exec x s).2

/-- what is said of the state before the computation can be said after it; in case of `c`,
unless the computation breaks down -/
def KeepsSmooth (c : Prop) (I : σ → Prop) (x : ExceptT Fault (StateM σ) α) : Prop :=
  ∀ s, I s → (c → Outcome.Smooth (exec x s).1) → I (exec x s).2

theorem Keeps.smooth {x : Effect σ α} (h : Keeps I x) : KeepsSmooth c I x := fun s hs _ => h s hs

theorem KeepsSmooth.keeps {x : Effect σ α} (h : KeepsSmooth False I x) : Keeps I x := fun s hs => h s hs False.elim

namespace KeepsSmooth

theorem bind {x : Effect σ α} {f : α → Effect σ β} (hx : KeepsSmooth c I x)
    (hf : ∀ a, KeepsSmooth c I (f a)) : KeepsSmooth c I (x >>= f) := by
  intro s hs hsmooth
  have ht := hx s hs
  rw [exec_bind] at hsmooth ⊢
  rcases hrun : exec x s with ⟨g | a, t⟩
  · rw [hrun] at hsmooth ht
    exact ht fun hc f hf => hsmooth hc f (by rw [← Except.error.inj hf])
  · rw [hrun] at hsmooth ht
    exact hf a t (ht fun _ => Outcome.smooth_ok a) hsmooth

theorem get_bind {f : σ → Effect σ β} (hf : ∀ s, I s → (c → Outcome.Smooth (exec (f s) s).1) → I (exec (f s) s).2) :
    KeepsSmooth c I (MonadState.get >>= f) := by
  intro s hs hsmooth
  rw [exec_bind, exec_get] at hsmooth ⊢
  exact hf s hs hsmooth

theorem and {x : Effect σ α} (hx : Keeps I x) (hy : KeepsSmooth c J x) : KeepsSmooth c (fun s => I s ∧ J s) x :=
  fun s hs hsmooth => ⟨hx s hs.1, hy s hs.2 hsmooth⟩

theorem ite {b : Prop} [Decidable b] {x y : Effect σ α} (hx : KeepsSmooth c I x) (hy : KeepsSmooth c I y) :
    KeepsSmooth c I (if b then x else y) := by
  split
  · exact hx
  · exact hy

/-- what breaks down is not taken up -/
theorem tryCatch {x : Effect σ α} {h : Fault → Effect σ α} (hx : KeepsSmooth c I x)
    (hh : ∀ f, KeepsSmooth c I (h f)) (hbreaks : ∀ f, f.breaks = true → h f = MonadExcept.throw f) :
    KeepsSmooth c I (MonadExcept.tryCatch x h) := by
  intro s hs hsmooth
  have ht := hx s hs
  rw [exec_tryCatch] at hsmooth ⊢
  rcases hrun : exec x s with ⟨g | a, t⟩
  · rw [hrun] at hsmooth ht
    refine hh g t (ht fun hc f hf => ?_) hsmooth
    obtain rfl : g = f := Except.error.inj hf
    by_contra hg
    have hsmooth := hsmooth hc
    simp only [hbreaks g (by simpa using hg), exec_throw] at hsmooth
    exact hg (hsmooth g rfl)
  · rw [hrun] at ht
    exact ht fun _ => Outcome.smooth_ok a

theorem foldlM {f : β → α → Effect σ β} {l : List α} (h : ∀ b, ∀ a ∈ l, KeepsSmooth c I (f b a)) (b : β) :
    KeepsSmooth c I (l.foldlM f b) := by
  induction l generalizing b with
  | nil => exact fun s hs _ => hs
  | cons a l ih =>
    rw [List.foldlM_cons]
    exact (h b a List.mem_cons_self).bind fun b => ih (fun b a ha => h b a (List.mem_cons_of_mem _ ha)) b

theorem forM {f : α → Effect σ PUnit} {l : List α} (h : ∀ a ∈ l, KeepsSmooth c I (f a)) :
    KeepsSmooth c I (l.forM f) := by
  induction l with
  | nil => exact fun s hs _ => hs
  | cons a l ih =>
    change KeepsSmooth c I (f a >>= fun _ => l.forM f)
    exact (h a List.mem_cons_self).bind fun _ => ih fun a ha => h a (List.mem_cons_of_mem _ ha)

end KeepsSmooth

namespace Keeps

theorem pure (a : α) : Keeps I (Pure.pure a : Effect σ α) := fun _ hs => hs

theorem throw (f : Fault) : Keeps I (MonadExcept.throw f : Effect σ α) := fun _ hs => hs

theorem lift (x : Outcome α) : Keeps I (Outcome.lift x : Effect σ α) := fun _ hs => hs

theorem get : Keeps I (MonadState.get : Effect σ σ) := fun _ hs => hs

theorem change {f : σ → σ} (h : ∀ s, I s → I (f s)) : Keeps I (modify f : Effect σ PUnit) := h

/-- a sequence keeps what its parts keep; the second part may use what the first one made and left -/
theorem bind_of {x : Effect σ α} {f : α → Effect σ β} (hx : Keeps I x)
    (hf : ∀ s a t, I s → exec x s = (.ok a, t) → I t → I (exec (f a) t).2) : Keeps I (x >>= f) := by
  intro s hs
  have ht := hx s hs
  rw [exec_bind]
  rcases hrun : exec x s with ⟨e | a, t⟩
  · rwa [hrun] at ht
  · rw [hrun] at ht
    exact hf s a t hs hrun ht

theorem bind {x : Effect σ α} {f : α → Effect σ β} (hx : Keeps I x)
    (hf : ∀ a, Keeps I (f a)) : Keeps I (x >>= f) :=
  hx.bind_of fun _ a t _ _ ht => hf a t ht

theorem get_bind {f : σ → Effect σ β} (hf : ∀ s, I s → I (exec (f s) s).2) :
    Keeps I (MonadState.get >>= f) :=
  get.bind_of fun s a t hs hrun ht => by
    obtain ⟨ha, rfl⟩ := Prod.mk.inj hrun
    obtain rfl := Except.ok.inj ha
    exact hf s hs

theorem and {J : σ → Prop} {x : Effect σ α} (hx : Keeps I x) (hy : Keeps J x) : Keeps (fun s => I s ∧ J s) x :=
  fun s hs => ⟨hx s hs.1, hy s hs.2⟩

theorem tryCatch {x : Effect σ α} {h : Fault → Effect σ α} (hx : Keeps I x)
    (hh : ∀ f, Keeps I (h f)) : Keeps I (MonadExcept.tryCatch x h) := by
  intro s hs
  have ht := hx s hs
  rw [exec_tryCatch]
  rcases hrun : exec x s with ⟨e | a, t⟩
  · rw [hrun] at ht
    exact hh e t ht
  · rwa [hrun] at ht

theorem ite {b : Prop} [Decidable b] {x y : Effect σ α} (hx : Keeps I x) (hy : Keeps I y) :
    Keeps I (if b then x else y) := by
  split
  · exact hx
  · exact hy

theorem foldlM {f : β → α → Effect σ β} {l : List α} (h : ∀ b, ∀ a ∈ l, Keeps I (f b a)) (b : β) :
    Keeps I (l.foldlM f b) :=
  (KeepsSmooth.foldlM (c := False) (fun b a ha => (h b a ha).smooth) b).keeps

theorem forM {f : α → Effect σ PUnit} {l : List α} (h : ∀ a ∈ l, Keeps I (f a)) : Keeps I (l.forM f) :=
  (KeepsSmooth.forM (c := False) fun a ha => (h a ha).smooth).keeps

theorem forIn {f : α → Effect σ β} {l : List α} (h : ∀ a ∈ l, Keeps I (f a)) :
    Keeps I (ForIn.forIn l PUnit.unit fun a _ => do let _ ← f a; return ForInStep.yield PUnit.unit) := by
  induction l with
  | nil => exact pure _
  | cons a l ih =>
    rw [List.forIn_cons]
    refine ((h a List.mem_cons_self).bind fun _ => pure _).bind fun r => ?_
    cases r with
    | done b => exact pure _
    | yield b => exact ih fun a ha => h a (List.mem_cons_of_mem _ ha)

end Keeps

/-- the computation keeps something, and what comes out of it fits -/
def Yields (I : σ → Prop) (x : ExceptT Fault (StateM σ) α) (Q : α → Prop) : Prop :=
  ∀ s, I s → I (exec x s).2 ∧ ∀ a, (exec x s).1 = .ok a → Q a

namespace Yields

variable {Q : α → Prop} {R : β → Prop}

theorem keeps {x : Effect σ α} (h : Yields I x Q) : Keeps I x := fun s hs => (h s hs).1

theorem pure {a : α} (h : Q a) : Yields I (Pure.pure a : Effect σ α) Q := by
  intro s hs
  refine ⟨hs, fun b hb => ?_⟩
  rwa [← Except.ok.inj hb]

theorem throw (f : Fault) : Yields I (MonadExcept.throw f : Effect σ α) Q := by
  intro s hs
  exact ⟨hs, fun b hb => by cases hb⟩

theorem get : Yields I (MonadState.get : Effect σ σ) I := by
  intro s hs
  refine ⟨hs, fun b hb => ?_⟩
  rwa [← Except.ok.inj hb]

theorem bind {x : Effect σ α} {f : α → Effect σ β} (hx : Yields I x Q)
    (hf : ∀ a, Q a → Yields I (f a) R) : Yields I (x >>= f) R := by
  intro s hs
  obtain ⟨ht, hq⟩ := hx s hs
  rw [exec_bind]
  rcases hrun : exec x s with ⟨e | a, t⟩
  · rw [hrun] at ht
    exact ⟨ht, fun b hb => by cases hb⟩
  · rw [hrun] at ht hq
    exact hf a (hq a rfl) t ht

theorem mono {x : Effect σ α} {R : α → Prop} (hx : Yields I x Q) (hQR : ∀ a, Q a → R a) : Yields I x R :=
  fun s hs => ⟨(hx s hs).1, fun a ha => hQR a ((hx s hs).2 a ha)⟩

theorem throw_bind (f : Fault) (g : α → Effect σ β) : Yields I (MonadExcept.throw f >>= g) R := by
  intro s hs
  exact ⟨hs, fun b hb => by cases hb⟩

theorem ite {b : Prop} [Decidable b] {x y : Effect σ α} (hx : Yields I x Q) (hy : Yields I y Q) :
    Yields I (if b then x else y) Q := by
  split
  · exact hx
  · exact hy

theorem of_keeps {x : Effect σ α} (h : Keeps I x) : Yields I x fun _ => True :=
  fun s hs => ⟨h s hs, fun _ _ => trivial⟩

theorem mapM {f : α → Effect σ β} {Q : α → β → Prop} {l : List α} (h : ∀ a ∈ l, Yields I (f a) (Q a)) :
    Yields I (l.mapM f) (List.Forall₂ Q l) := by
  induction l with
  | nil => exact pure .nil
  | cons a l ih =>
    rw [List.mapM_cons]
    refine (h a List.mem_cons_self).bind fun b hb => ?_
    refine (ih fun a ha => h a (List.mem_cons_of_mem _ ha)).bind fun bs hbs => ?_
    exact pure (.cons hb hbs)

end Yields

theorem Keeps.mapM {f : α → Effect σ β} {l : List α} (h : ∀ a ∈ l, Keeps I (f a)) : Keeps I (l.mapM f) :=
  (Yields.mapM fun a ha => .of_keeps (h a ha)).keeps

end State

end TableauTutor

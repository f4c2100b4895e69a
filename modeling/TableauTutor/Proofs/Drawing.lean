import Mathlib.Algebra.Ring.Int.Defs
import TableauTutor.Generation
import TableauTutor.Proofs.Growth

/-!
What draws lead to. `Meets` says of a computation that draws what its result is like, whatever is drawn, and what its
fault is like if there is one; `Leads` says which numbers lead to a result. A shuffle leads to every rearrangement and
to nothing else, so the arities that come up are known.

- `meets_shuffle`, `leads_shuffle`: a shuffle gives rearrangements, and all of them.
- `exec_arities_iff`: the lists of arities that can be drawn.
-/

namespace TableauTutor

namespace Drawing

variable {α β : Type} {x : Drawing α} {f : α → Drawing β} {P R : α → Prop} {Q : Fault → Prop} {d d' : Draws} {a : α}

/-! ## Whatever is drawn -/

/-- whatever is drawn, a result is as described, and so is a fault -/
structure Meets (x : Drawing α) (P : α → Prop) (Q : Fault → Prop) : Prop where
  result : ∀ {d a d'}, exec x d = (.ok a, d') → P a
  fault : ∀ {d e d'}, exec x d = (.error e, d') → Q e

namespace Meets

theorem exists_ok (h : Meets x P fun _ => False) (d : Draws) : ∃ a d', exec x d = (.ok a, d') ∧ P a := by
  rcases hr : exec x d with ⟨e | a, d'⟩
  · exact (h.fault hr).elim
  · exact ⟨a, d', rfl, h.result hr⟩

theorem exists_error (h : Meets x (fun _ => False) Q) (d : Draws) : ∃ e d', exec x d = (.error e, d') ∧ Q e := by
  rcases hr : exec x d with ⟨e | a, d'⟩
  · exact ⟨e, d', rfl, h.fault hr⟩
  · exact (h.result hr).elim

protected theorem pure (h : P a) : Meets (pure a) P Q where
  result := by
    intro d b d' hr
    rw [exec_pure] at hr
    cases hr
    exact h
  fault := by
    intro d e d' hr
    cases hr

protected theorem throw {e : Fault} (h : Q e) : Meets (throw e : Drawing α) P Q where
  result := by
    intro d a d' hr
    cases hr
  fault := by
    intro d e' d' hr
    rw [exec_throw] at hr
    cases hr
    exact h

/-- one computation after another -/
protected theorem bind {S : β → Prop} (hx : Meets x P Q) (hf : ∀ a, P a → Meets (f a) S Q) : Meets (x >>= f) S Q where
  result := by
    intro d b d' hr
    rcases hx' : exec x d with ⟨e | a, t⟩
    · rw [exec_bind_error hx'] at hr
      cases hr
    · rw [exec_bind_ok hx'] at hr
      exact (hf a (hx.result hx')).result hr
  fault := by
    intro d e d' hr
    rcases hx' : exec x d with ⟨e' | a, t⟩
    · rw [exec_bind_error hx'] at hr
      cases hr
      exact hx.fault hx'
    · rw [exec_bind_ok hx'] at hr
      exact (hf a (hx.result hx')).fault hr

theorem mono (h : Meets x P Q) (hPR : ∀ a, P a → R a) : Meets x R Q := ⟨fun hr => hPR _ (h.result hr), h.fault⟩

theorem mono_fault {S : Fault → Prop} (h : Meets x P Q) (hQS : ∀ e, Q e → S e) : Meets x P S :=
  ⟨h.result, fun hr => hQS _ (h.fault hr)⟩

end Meets

theorem exec_below (n : Nat) (d : Draws) : exec (below n) d =
    (.ok ((d.numbers[d.drawn % d.numbers.length]?).getD 0 % (n : Int)).toNat, { d with drawn := d.drawn + 1 }) := rfl

theorem meets_below {n : Nat} (hn : 0 < n) : Meets (below n) (· < n) Q where
  result := by
    intro d k d' hr
    rw [exec_below] at hr
    cases hr
    have hlt := Int.emod_lt_of_pos ((d.numbers[d.drawn % d.numbers.length]?).getD 0) (Int.natCast_pos.2 hn)
    omega
  fault := by
    intro d e d' hr
    cases hr

/-- the fault of a choice among nothing -/
def nothingToDraw : Fault := .outOfRange "nothing to draw from"

/-- the member at a position that was drawn -/
def drawnAt (xs : List α) (i : Nat) : Drawing α :=
  match xs[i]? with
  | some x => return x
  | none => throw nothingToDraw

theorem drawnAt_eq {xs : List α} {i : Nat} (hi : i < xs.length) : drawnAt xs i = pure xs[i] := by
  rw [drawnAt, List.getElem?_eq_getElem hi]

theorem choice_eq {xs : List α} (hxs : xs ≠ []) : choice xs = below xs.length >>= drawnAt xs := by
  cases xs with
  | nil => exact absurd rfl hxs
  | cons x xs => rfl

theorem meets_choice {xs : List α} (hxs : xs = [] → Q nothingToDraw) : Meets (choice xs) (· ∈ xs) Q := by
  by_cases hnil : xs = []
  · subst hnil
    exact .throw (hxs rfl)
  · rw [choice_eq hnil]
    refine (meets_below (List.length_pos_iff.2 hnil)).bind fun i hi => ?_
    rw [drawnAt_eq hi]
    exact .pure (List.getElem_mem hi)

theorem meets_choices {xs : List α} (hxs : xs = [] → Q nothingToDraw) (n : Nat) :
    Meets (choices xs n) (fun ys => ys.length = n ∧ ∀ y ∈ ys, y ∈ xs) Q := by
  induction n with
  | zero => exact .pure ⟨rfl, by simp⟩
  | succ n ih =>
    refine (meets_choice hxs).bind fun y hy => ih.bind fun ys hys => .pure ⟨by simp [hys.1], ?_⟩
    exact List.forall_mem_cons.2 ⟨hy, hys.2⟩

theorem swap_perm (xs : List α) (i j : Nat) : (swap xs i j).Perm xs := by
  unfold swap
  split
  · rename_i x y hx hy
    obtain ⟨hi, rfl⟩ := List.getElem?_eq_some_iff.1 hx
    obtain ⟨hj, rfl⟩ := List.getElem?_eq_some_iff.1 hy
    exact List.set_set_perm hi hj
  · exact .refl xs

theorem meets_shuffleFrom (i : Nat) (xs : List α) : Meets (shuffleFrom i xs) (·.Perm xs) Q := by
  induction i generalizing xs with
  | zero => exact .pure (.refl xs)
  | succ i ih =>
    refine (meets_below (by omega)).bind fun j _ => ?_
    exact (ih (swap xs (i + 1) j)).mono fun ys hys => hys.trans (swap_perm xs (i + 1) j)

theorem meets_shuffle (xs : List α) : Meets (shuffle xs) (·.Perm xs) Q := meets_shuffleFrom _ xs

theorem exec_makeUp (x : Lexer) (s : Sentence) (kind : String) (d : Draws) :
    exec (makeUp x s kind) d = (s.generate (x.turn d.spelled) kind, { d with spelled := d.spelled + 1 }) := by
  simp only [makeUp, exec_bind, exec_get, exec_set, exec_lift]

/-- a symbol is made up as the lexer does it on some occasion -/
theorem meets_makeUp {x : Lexer} {s : Sentence} {kind : String} {P : Symbol → Prop}
    (hP : ∀ i y, s.generate (x.turn i) kind = .ok y → P y) (hQ : ∀ i e, s.generate (x.turn i) kind = .error e → Q e) :
    Meets (makeUp x s kind) P Q where
  result := by
    intro d y d' hr
    rw [exec_makeUp] at hr
    exact hP _ y (Prod.ext_iff.1 hr).1
  fault := by
    intro d e d' hr
    rw [exec_makeUp] at hr
    exact hQ _ e (Prod.ext_iff.1 hr).1

/-! ## Numbers that lead to a result -/

/-- the numbers are those to be drawn next -/
def Next (d : Draws) (ns : List Int) : Prop :=
  ∀ i, i < ns.length → d.numbers[(d.drawn + i) % d.numbers.length]? = ns[i]?

/-- where the numbers come next, they are drawn and the result is the given one -/
def Leads (x : Drawing α) (ns : List Int) (a : α) : Prop :=
  ∀ d, Next d ns → exec x d = (.ok a, { d with drawn := d.drawn + ns.length })

theorem Next.append {ns ms : List Int} (h : Next d (ns ++ ms)) :
    Next d ns ∧ Next { d with drawn := d.drawn + ns.length } ms := by
  constructor
  · intro i hi
    rw [h i (by rw [List.length_append]; omega), List.getElem?_append_left hi]
  · intro i hi
    have := h (ns.length + i) (by rw [List.length_append]; omega)
    rw [List.getElem?_append_right (by omega), Nat.add_sub_cancel_left] at this
    rw [← this, Nat.add_assoc]

theorem Leads.pure (a : α) : Leads (pure a) [] a := fun _ _ => rfl

theorem Leads.bind {ns ms : List Int} {b : β} (hx : Leads x ns a) (hf : Leads (f a) ms b) :
    Leads (x >>= f) (ns ++ ms) b := by
  intro d hd
  obtain ⟨hns, hms⟩ := hd.append
  rw [exec_bind_ok (hx d hns), hf _ hms, List.length_append, ← Nat.add_assoc]

theorem Leads.exists_exec {ns : List Int} (h : Leads x ns a) : ∃ d d', exec x d = (.ok a, d') := by
  refine ⟨{ numbers := ns }, _, h { numbers := ns } fun i hi => ?_⟩
  simp only [Nat.zero_add, Nat.mod_eq_of_lt hi]

theorem leads_below {k n : Nat} (hk : k < n) : Leads (below n) [(k : Int)] k := by
  intro d hd
  have hnext := hd 0 (by simp)
  simp only [Nat.add_zero, List.getElem?_cons_zero] at hnext
  rw [exec_below, hnext, Option.getD_some, Int.emod_eq_of_lt (by omega) (by omega), Int.toNat_natCast]
  rfl

theorem leads_choice {xs : List α} (ha : a ∈ xs) : ∃ ns, Leads (choice xs) ns a := by
  obtain ⟨i, hi, rfl⟩ := List.getElem_of_mem ha
  rw [choice_eq (List.ne_nil_of_mem ha)]
  have hpick : Leads (drawnAt xs i) [] xs[i] := by
    rw [drawnAt_eq hi]
    exact .pure _
  exact ⟨_, (leads_below hi).bind hpick⟩

theorem leads_choices {xs ys : List α} (hys : ∀ y ∈ ys, y ∈ xs) : ∃ ns, Leads (choices xs ys.length) ns ys := by
  induction ys with
  | nil => exact ⟨[], .pure []⟩
  | cons y ys ih =>
    obtain ⟨hy, hys⟩ := List.forall_mem_cons.1 hys
    obtain ⟨ns, hns⟩ := leads_choice hy
    obtain ⟨ms, hms⟩ := ih hys
    exact ⟨_, hns.bind (hms.bind (.pure (y :: ys)))⟩

theorem drop_swap {xs : List α} {i j : Nat} (hi : i < xs.length) (hj : j ≤ i) (ha : xs[j]? = some a) :
    (swap xs i j).drop i = a :: xs.drop (i + 1) := by
  have hswap : swap xs i j = (xs.set i a).set j xs[i] := by
    unfold swap
    simp only [ha, List.getElem?_eq_getElem hi]
  have hlen : i < (swap xs i j).length := by simpa [(swap_perm xs i j).length_eq] using hi
  rw [List.drop_eq_getElem_cons hlen]
  simp only [hswap]
  congr 1
  · rw [List.getElem_set]
    split
    · rename_i hij
      subst hij
      simpa [List.getElem?_eq_getElem hi] using ha
    · exact List.getElem_set_self _
  · rw [List.drop_set_of_lt (by omega), List.drop_set_of_lt (by omega)]

/-- rearrangements that agree behind a position are rearrangements up to it -/
theorem perm_take {xs ys : List α} {k : Nat} (hperm : ys.Perm xs) (hdrop : ys.drop k = xs.drop k) :
    (ys.take k).Perm (xs.take k) := by
  rw [← List.take_append_drop k ys, ← List.take_append_drop k xs, hdrop] at hperm
  exact (List.perm_append_right_iff _).1 hperm

theorem leads_shuffleFrom {i : Nat} {xs ys : List α} (hi : i < xs.length) (hperm : ys.Perm xs)
    (hdrop : ys.drop (i + 1) = xs.drop (i + 1)) : ∃ ns, Leads (shuffleFrom i xs) ns ys := by
  -- what stands behind position i is in place; the members up to i are still to be rearranged
  have htake := perm_take hperm hdrop
  induction i generalizing xs with
  | zero =>
    obtain ⟨x, hx⟩ : ∃ x, xs.take 1 = [x] := List.length_eq_one_iff.1 (by simp; omega)
    rw [hx, List.perm_singleton] at htake
    have hys : ys = xs := by
      rw [← List.take_append_drop 1 ys, ← List.take_append_drop 1 xs, htake, hx, hdrop]
    exact ⟨[], hys ▸ .pure xs⟩
  | succ i ih =>
    have hlen : i + 1 < ys.length := by
      rw [hperm.length_eq]
      exact hi
    -- the member that belongs at the position is among those that may be exchanged with the one there
    have hmem : ys[i + 1] ∈ xs.take (i + 2) := htake.subset (List.mem_take_iff_getElem.2 ⟨i + 1, by omega, rfl⟩)
    obtain ⟨j, hj, hget⟩ := List.mem_take_iff_getElem.1 hmem
    have hplace := drop_swap hi (by omega : j ≤ i + 1) (List.getElem?_eq_some_iff.2 ⟨by omega, hget⟩)
    have hperm' := hperm.trans (swap_perm xs (i + 1) j).symm
    have hdrop' : ys.drop (i + 1) = (swap xs (i + 1) j).drop (i + 1) := by
      rw [hplace, List.drop_eq_getElem_cons hlen, hdrop]
    have hi' : i < (swap xs (i + 1) j).length := by
      rw [(swap_perm xs (i + 1) j).length_eq]
      omega
    obtain ⟨ns, hns⟩ := ih hi' hperm' hdrop' (perm_take hperm' hdrop')
    exact ⟨_, (leads_below (by omega : j < i + 2)).bind hns⟩

/-- **Every rearrangement** can come out of a shuffle. -/
theorem leads_shuffle {xs ys : List α} (h : ys.Perm xs) : ∃ ns, Leads (shuffle xs) ns ys := by
  cases xs with
  | nil =>
    obtain rfl := List.perm_nil.1 h
    exact ⟨[], .pure []⟩
  | cons x xs =>
    refine leads_shuffleFrom (by simp) h ?_
    rw [List.drop_of_length_le (by simp [h.length_eq]), List.drop_of_length_le (by simp)]

/-! ## Arities -/

/-- inner nodes with the given arities, and the leaves that go with them, in any order -/
def Arrangement (l : Int) (possible as : List Int) : Prop :=
  ∃ inner : List Int, inner.length = l.toNat ∧ (∀ a ∈ inner, a ∈ possible) ∧
    as.Perm (inner ++ List.replicate (inner.sum + 1 - l).toNat 0)

theorem arities_eq (l : Int) (possible : List Int) : arities l possible = choices possible l.toNat >>= fun inner =>
    shuffle (inner ++ List.replicate (inner.sum + 1 - l).toNat 0) := by
  unfold arities
  refine congrArg _ (funext fun inner => ?_)
  rw [← List.sum_eq_foldl, repeatList]
  simp

theorem meets_arities {possible : List Int} (hne : possible = [] → Q nothingToDraw) (l : Int) :
    Meets (arities l possible) (Arrangement l possible) Q := by
  rw [arities_eq]
  refine (meets_choices hne l.toNat).bind fun inner hinner => ?_
  exact (meets_shuffle _).mono fun as has => ⟨inner, hinner.1, hinner.2, has⟩

/-- **The arities that can be drawn** are the arrangements of inner nodes and leaves. -/
theorem exec_arities_iff {l : Int} {possible as : List Int} :
    (∃ d d', exec (arities l possible) d = (.ok as, d')) ↔ Arrangement l possible as := by
  constructor
  · rintro ⟨d, d', h⟩
    exact (meets_arities (Q := fun _ => True) (fun _ => trivial) l).result h
  · rintro ⟨inner, hlen, hmem, has⟩
    obtain ⟨ns, hns⟩ := leads_choices hmem
    obtain ⟨ms, hms⟩ := leads_shuffle has
    rw [arities_eq, ← hlen]
    exact (hns.bind hms).exists_exec

end Drawing

end TableauTutor

import Mathlib.Data.List.Basic
import TableauTutor.Proofs.Computations
import TableauTutor.Sentence.Part

/-!
Sentences in parts. A division of a sentence says what stands between its separators; a part is looked for by reading
the sentence until as many separators have been counted. The count is looked at behind each symbol, so that a first part
without symbols is never found: the first symbol is then a separator already.

- `popPart_division`: a part taken out of a sentence.
- `onPart_division`: a part changed where it stands.
-/

namespace TableauTutor

/-- branches of sentences -/
def Structure.forked (bs : List (List Sentence)) : Structure := group (bs.map fun b => group (b.map sentence))

namespace Sentence

variable {kind : String} {p s : Sentence} {ps qs : List Sentence} {ys zs : List Symbol}

/-! ## Divisions -/

/-- each separator with the part behind it -/
def trail : List Symbol → List Sentence → Sentence
  | y :: ys, p :: ps => y :: p ++ trail ys ps
  | _, _ => []

/-- each part with the separator behind it -/
def lead : List Sentence → List Symbol → Sentence
  | p :: ps, y :: ys => p ++ y :: lead ps ys
  | _, _ => []

/-- parts with a separator between two -/
def weave : List Sentence → List Symbol → Sentence
  | [], _ => []
  | p :: ps, ys => p ++ trail ys ps

/-- parts, and the symbols of a kind that stand between two of them; there are none in the parts -/
structure Division (kind : String) where
  parts : List Sentence
  separators : List Symbol
  length_parts : parts.length = separators.length + 1
  ofKind : ∀ y ∈ separators, ∃ lexem, y = .of kind lexem
  unbroken : ∀ p ∈ parts, ∀ y ∈ p, ∀ lexem, y ≠ .of kind lexem

namespace Division

variable (d : Division kind)

def whole : Sentence := weave d.parts d.separators
def first : Sentence := d.parts.headD []
def last : Sentence := d.parts.getLastD []

end Division

/-- the part has no separators in it -/
def Unbroken (kind : String) (p : Sentence) : Prop := ∀ y ∈ p, isSeparator kind y = false

theorem Unbroken.countP_eq_zero (hp : Unbroken kind p) : p.countP (isSeparator kind) = 0 :=
  List.countP_eq_zero.2 fun y hy => by simp [hp y hy]

theorem isSeparator_iff {y : Symbol} : isSeparator kind y = true ↔ ∃ lexem, y = .of kind lexem := by
  rw [isSeparator, Text.startsWith, List.isPrefixOf_iff_prefix]
  constructor
  · rintro ⟨cs, hcs⟩
    refine ⟨String.ofList cs, String.toList_injective ?_⟩
    simpa [Symbol.of] using hcs.symm
  · rintro ⟨lexem, rfl⟩
    simp [Symbol.of]

namespace Division

/-- the division of a sentence at its separators -/
def of (kind : String) : Sentence → Division kind
  | [] => ⟨[[]], [], rfl, by simp, by simp⟩
  | y :: s =>
    let d := of kind s
    if h : isSeparator kind y = true then
      { parts := [] :: d.parts
        separators := y :: d.separators
        length_parts := by simp [d.length_parts]
        ofKind := List.forall_mem_cons.2 ⟨isSeparator_iff.1 h, d.ofKind⟩
        unbroken := List.forall_mem_cons.2 ⟨by simp, d.unbroken⟩ }
    else
      { parts := d.parts.modifyHead (y :: ·)
        separators := d.separators
        length_parts := by rw [List.length_modifyHead, d.length_parts]
        ofKind := d.ofKind
        unbroken := by
          obtain ⟨p, ps, hparts⟩ := List.exists_cons_of_length_eq_add_one d.length_parts
          obtain ⟨hp, hps⟩ := List.forall_mem_cons.1 (hparts ▸ d.unbroken)
          rw [hparts, List.modifyHead_cons]
          exact List.forall_mem_cons.2
            ⟨List.forall_mem_cons.2 ⟨fun lexem hy => h (isSeparator_iff.2 ⟨lexem, hy⟩), hp⟩, hps⟩ }

theorem whole_of (kind : String) (s : Sentence) : (of kind s).whole = s := by
  induction s with
  | nil => rfl
  | cons y s ih =>
    obtain ⟨p, ps, hparts⟩ := List.exists_cons_of_length_eq_add_one (of kind s).length_parts
    rw [whole, hparts, weave] at ih
    rw [of]
    split
    · simp [whole, weave, trail, hparts, ih]
    · simp [whole, weave, hparts, ih]

end Division

/-- **A sentence around a part.** What stands before the part ends with a separator, and what
stands behind it starts with one. -/
theorem weave_split (hlen : ps.length = ys.length) (p : Sentence) (zs : List Symbol) (qs : List Sentence) :
    weave (ps ++ p :: qs) (ys ++ zs) = lead ps ys ++ (p ++ trail zs qs) := by
  induction ps generalizing ys with
  | nil =>
    obtain rfl := List.length_eq_zero_iff.1 hlen.symm
    rfl
  | cons q ps ih =>
    cases ys with
    | nil => cases hlen
    | cons y ys =>
      have htrail : trail (y :: (ys ++ zs)) (ps ++ p :: qs) = y :: weave (ps ++ p :: qs) (ys ++ zs) := by
        cases ps <;> rfl
      rw [List.cons_append, List.cons_append, weave, htrail, ih (Nat.succ.inj hlen), lead]
      simp

theorem lead_concat (hlen : ps.length = ys.length) (p : Sentence) (y : Symbol) :
    lead (ps ++ [p]) (ys ++ [y]) = lead ps ys ++ (p ++ [y]) := by
  induction ps generalizing ys with
  | nil =>
    obtain rfl := List.length_eq_zero_iff.1 hlen.symm
    rfl
  | cons q ps ih =>
    cases ys with
    | nil => cases hlen
    | cons z ys => simp [lead, ih (Nat.succ.inj hlen)]

theorem lead_ne_nil (hlen : ps.length = ys.length) (hne : ps ≠ []) : lead ps ys ≠ [] := by
  cases ps with
  | nil => exact absurd rfl hne
  | cons p ps =>
    cases ys with
    | nil => cases hlen
    | cons y ys => simp [lead]

theorem untilSeparator_eq (hp : Unbroken kind p) (hs : ∀ y ∈ s.head?, isSeparator kind y = true) :
    untilSeparator kind (p ++ s) = p := by
  rw [untilSeparator, List.takeWhile_append_of_pos fun y hy => by simp [hp y hy]]
  cases s with
  | nil => simp
  | cons y s => simp [hs y rfl]

theorem countP_trail (hlen : ys.length = ps.length) (hps : ∀ p ∈ ps, Unbroken kind p)
    (hys : ∀ y ∈ ys, isSeparator kind y = true) : (trail ys ps).countP (isSeparator kind) = ys.length := by
  induction ys generalizing ps with
  | nil => rfl
  | cons y ys ih =>
    cases ps with
    | nil => cases hlen
    | cons p ps =>
      obtain ⟨hp, hps⟩ := List.forall_mem_cons.1 hps
      obtain ⟨hy, hys⟩ := List.forall_mem_cons.1 hys
      simp [trail, hy, hp.countP_eq_zero, ih (Nat.succ.inj hlen) hps hys]

/-! ## Counting separators -/

theorem reachFrom_missed {n : Int} {seen : Nat} (h : n < seen ∨ (seen + s.countP (isSeparator kind) : Nat) < n) :
    reachFrom kind n seen s = ⟨s.length, seen + s.countP (isSeparator kind)⟩ := by
  induction s generalizing seen with
  | nil => rfl
  | cons y s ih =>
    rw [List.countP_cons] at h ⊢
    rw [reachFrom]
    cases hy : isSeparator kind y with
    | false =>
      simp only [hy, Bool.false_eq_true, if_false, Nat.add_zero] at h ⊢
      rw [if_neg (by omega), ih h]
      rfl
    | true =>
      simp only [hy, if_true] at h ⊢
      rw [if_neg (by omega), ih (by omega)]
      simp [Nat.add_assoc, Nat.add_comm 1]

/-- a part is read over as long as the count is not the one looked for -/
theorem reachFrom_part {n : Int} {seen : Nat} (hp : Unbroken kind p) (hn : (seen : Int) ≠ n) (s : Sentence) :
    reachFrom kind n seen (p ++ s) =
      ⟨p.length + (reachFrom kind n seen s).place, (reachFrom kind n seen s).separators⟩ := by
  induction p with
  | nil => simp
  | cons y p ih =>
    obtain ⟨hy, hp⟩ := List.forall_mem_cons.1 hp
    rw [List.cons_append, reachFrom]
    simp only [hy, Bool.false_eq_true, if_false]
    rw [if_neg hn, ih hp]
    simp [Nat.add_right_comm]

/-- the separator in front of a part is found -/
theorem reachFrom_lead (hps : ∀ p ∈ ps, Unbroken kind p) (hys : ∀ y ∈ ys, isSeparator kind y = true)
    (hlen : ps.length = ys.length) (hne : ps ≠ []) (seen : Nat) (s : Sentence) :
    reachFrom kind (seen + ps.length : Nat) seen (lead ps ys ++ s) = ⟨(lead ps ys).length - 1, seen + ps.length⟩ := by
  induction ps generalizing ys seen with
  | nil => exact absurd rfl hne
  | cons p ps ih =>
    cases ys with
    | nil => cases hlen
    | cons y ys =>
      obtain ⟨hp, hps⟩ := List.forall_mem_cons.1 hps
      obtain ⟨hy, hys⟩ := List.forall_mem_cons.1 hys
      have hlen := Nat.succ.inj hlen
      rw [lead, List.append_assoc, List.cons_append, reachFrom_part hp (by simp; omega), reachFrom]
      simp only [hy, if_true]
      by_cases hps' : ps = []
      · subst hps'
        simp [lead]
      · have hcount : seen + (p :: ps).length = seen + 1 + ps.length := by simp; omega
        have hpos := List.length_pos_iff.2 (lead_ne_nil hlen hps')
        have hlong := List.length_pos_iff.2 hps'
        rw [hcount, if_neg (by omega), ih hps hys hlen hps' (seen + 1)]
        simp
        omega

/-- a change is made between two places, together with what stands behind them if that is a single symbol -/
theorem onPart_between {n : Int} {far place count : Nat} (front p back : Sentence) (hne : front ++ (p ++ back) ≠ [])
    (hreach : reach kind n (front ++ (p ++ back)) = ⟨far, count⟩) (hn : n ≤ count)
    (hplace : min far ((front ++ (p ++ back)).length - 1) = place)
    (hstart : (if count = 0 then place else place + 1) = front.length)
    (hstop : place + 1 + (untilSeparator kind ((front ++ (p ++ back)).drop (place + 1))).length = (front ++ p).length)
    (f : Sentence → Outcome Structure) :
    onPart kind n f (front ++ (p ++ back)) = f (if back.length ≤ 1 then p ++ back else p) >>= embed front back := by
  have hends : (front ++ (p ++ back)).length - 1 ≤ (front ++ p).length ↔ back.length ≤ 1 := by simp; omega
  have htake : ((front ++ (p ++ back)).take (front ++ p).length).drop front.length = p := by
    rw [← List.append_assoc, List.take_left, List.drop_left]
  have hback : (front ++ (p ++ back)).drop (front ++ p).length = back := by rw [← List.append_assoc, List.drop_left]
  simp only [onPart, hreach, hplace, hstart, hstop, htake, hback, List.drop_left, List.take_left, hends,
    List.isEmpty_iff, hne, if_false, Int.not_lt.2 hn]

/-- a part of a sentence, with the parts and separators before it and behind it -/
structure Around (kind : String) (ps : List Sentence) (ys : List Symbol) (p : Sentence) (zs : List Symbol)
    (qs : List Sentence) : Prop where
  before : ps.length = ys.length
  behind : zs.length = qs.length
  unbroken : ∀ q ∈ ps ++ p :: qs, Unbroken kind q
  separators : ∀ y ∈ ys ++ zs, isSeparator kind y = true

namespace Around

/-- **The place of a part.** Counting stops at the separator in front of the part, and at the first symbol of a part
that is the first. -/
theorem reach (h : Around kind ps ys p zs qs) (hfirst : ps = [] → p ≠ []) (s : Sentence) :
    reach kind ps.length (lead ps ys ++ (p ++ s)) = ⟨(lead ps ys).length - 1, ps.length⟩ := by
  by_cases hne : ps = []
  · subst hne
    obtain ⟨y, p, rfl⟩ := List.exists_cons_of_ne_nil (hfirst rfl)
    have hy := h.unbroken _ List.mem_cons_self y List.mem_cons_self
    simp [lead, Sentence.reach, reachFrom, hy]
  · have hlead := reachFrom_lead (fun q hq => h.unbroken q (List.mem_append_left _ hq))
      (fun y hy => h.separators y (List.mem_append_left _ hy)) h.before hne 0 (p ++ s)
    simpa [Sentence.reach] using hlead

theorem untilSeparator (h : Around kind ps ys p zs qs) : untilSeparator kind (p ++ trail zs qs) = p := by
  refine untilSeparator_eq (h.unbroken p (by simp)) fun y hy => h.separators y (List.mem_append_right _ ?_)
  cases zs with
  | nil => simp [trail] at hy
  | cons z zs =>
    cases qs with
    | nil => cases h.behind
    | cons q qs =>
      obtain rfl : z = y := by simpa [trail] using hy
      exact List.mem_cons_self

theorem popPart_first (h : Around kind [] [] p zs qs) (hp : p ≠ []) :
    popPart kind 0 (p ++ trail zs qs) = (weave qs (zs.eraseIdx 0), .ok p) := by
  have hreach : Sentence.reach kind 0 (p ++ trail zs qs) = ⟨0, 0⟩ := h.reach (fun _ => hp) (trail zs qs)
  have hleft : (trail zs qs).drop 1 = weave qs (zs.eraseIdx 0) := by
    cases zs with
    | nil => simp [trail, weave, List.length_eq_zero_iff.1 h.behind.symm]
    | cons z zs =>
      cases qs with
      | nil => cases h.behind
      | cons q qs => rfl
  simp [popPart, hreach, h.untilSeparator, hleft, hp]

theorem popPart_later {q : Sentence} {y : Symbol} (h : Around kind (ps ++ [q]) (ys ++ [y]) p zs qs) :
    popPart kind (ps.length + 1 : Nat) (lead (ps ++ [q]) (ys ++ [y]) ++ (p ++ trail zs qs)) =
      (weave (ps ++ q :: qs) (ys ++ zs), .ok p) := by
  have hlen : ps.length = ys.length := by simpa using h.before
  have hwhole : lead (ps ++ [q]) (ys ++ [y]) ++ (p ++ trail zs qs) = lead ps ys ++ q ++ y :: (p ++ trail zs qs) := by
    simp [lead_concat hlen]
  have hreach := h.reach (by simp) (trail zs qs)
  have hplace : (lead (ps ++ [q]) (ys ++ [y])).length - 1 = (lead ps ys ++ q).length := by simp [lead_concat hlen]
  rw [hwhole, hplace, List.length_append, List.length_singleton] at hreach
  rw [hwhole, weave_split hlen, ← List.append_assoc, popPart, hreach]
  generalize lead ps ys ++ q = front
  simp [h.untilSeparator]

/-- **A part taken out** of a sentence. -/
theorem popPart (h : Around kind ps ys p zs qs) (hfirst : ps = [] → p ≠ []) :
    popPart kind ps.length (weave (ps ++ p :: qs) (ys ++ zs)) =
      (weave ((ps ++ p :: qs).eraseIdx ps.length) ((ys ++ zs).eraseIdx (ps.length - 1)), .ok p) := by
  have herase : (ps ++ p :: qs).eraseIdx ps.length = ps ++ qs := by simp [List.eraseIdx_append_of_length_le]
  rw [weave_split h.before, herase]
  rcases List.eq_nil_or_concat' ps with rfl | ⟨ps, q, rfl⟩
  · obtain rfl := List.length_eq_zero_iff.1 h.before.symm
    exact h.popPart_first (hfirst rfl)
  · have hne : ys ≠ [] := List.ne_nil_of_length_pos (by simp [← h.before])
    obtain ⟨us, y, rfl⟩ := (List.eq_nil_or_concat' ys).resolve_left hne
    have hlen : ps.length = us.length := by simpa using h.before
    have hseps : (us ++ [y] ++ zs).eraseIdx us.length = us ++ zs := by simp [List.eraseIdx_append_of_length_le]
    have hlater := h.popPart_later
    rw [List.length_append, List.length_singleton, Nat.add_sub_cancel, hlater, hlen, hseps]
    simp

/-- **A part changed where it stands.** When no more than a separator stands behind the part, the change is made at the
part together with it. -/
theorem onPart (h : Around kind ps ys p zs qs) (hfirst : ps = [] → p ≠ []) (f : Sentence → Outcome Structure) :
    onPart kind ps.length f (weave (ps ++ p :: qs) (ys ++ zs)) =
      f (if (trail zs qs).length ≤ 1 then p ++ trail zs qs else p) >>= embed (lead ps ys) (trail zs qs) := by
  have hreach := h.reach hfirst (trail zs qs)
  have huntil := h.untilSeparator
  rw [weave_split h.before]
  by_cases hps : ps = []
  · subst hps
    obtain rfl := List.length_eq_zero_iff.1 h.before.symm
    obtain ⟨y, p, rfl⟩ := List.exists_cons_of_ne_nil (hfirst rfl)
    -- the first symbol is no separator, so that it makes no difference whether it is looked at
    have hnext : Sentence.untilSeparator kind (p ++ trail zs qs) = p := by
      have hy := h.unbroken (y :: p) (by simp) y List.mem_cons_self
      simpa [Sentence.untilSeparator, hy] using huntil
    exact onPart_between [] (y :: p) (trail zs qs) (by simp) hreach (Int.le_refl _) (Nat.zero_min _) rfl
      (by simp [hnext, Nat.add_comm]) f
  · have hpos := List.length_pos_iff.2 (lead_ne_nil h.before hps)
    have hplace : (lead ps ys).length - 1 + 1 = (lead ps ys).length := Nat.sub_add_cancel hpos
    refine onPart_between _ p _ (List.append_ne_nil_of_left_ne_nil (lead_ne_nil h.before hps) _) hreach (Int.le_refl _)
      (Nat.min_eq_left ?_) ?_ ?_ f
    · rw [List.length_append]
      omega
    · rw [if_neg (by simpa using hps), hplace]
    · rw [hplace, List.drop_left, huntil, List.length_append]

end Around

/-! ## Parts of a division -/

namespace Division

variable (d : Division kind)

theorem parts_unbroken (hp : p ∈ d.parts) : Unbroken kind p := by
  intro y hy
  rw [← Bool.not_eq_true, isSeparator_iff]
  exact fun ⟨lexem, h⟩ => d.unbroken p hp y hy lexem h

theorem isSeparator_of_mem {y : Symbol} (hy : y ∈ d.separators) : isSeparator kind y = true :=
  isSeparator_iff.2 (d.ofKind y hy)

theorem exists_around {i : Nat} (hi : i < d.parts.length) : ∃ ps ys p zs qs, ps.length = i ∧ d.parts[i] = p ∧
    d.parts = ps ++ p :: qs ∧ d.separators = ys ++ zs ∧ Around kind ps ys p zs qs := by
  have hlen := d.length_parts
  have hparts : d.parts = d.parts.take i ++ d.parts[i] :: d.parts.drop (i + 1) := by
    rw [List.getElem_cons_drop, List.take_append_drop]
  have hseps : d.separators = d.separators.take i ++ d.separators.drop i := (List.take_append_drop ..).symm
  refine ⟨_, _, _, _, _, ?_, rfl, hparts, hseps, ?_, ?_, ?_, ?_⟩
  · simp; omega
  · simp; omega
  · simp; omega
  · exact fun q hq => d.parts_unbroken (hparts ▸ hq)
  · exact fun y hy => d.isSeparator_of_mem (hseps ▸ hy)

theorem countP_whole : d.whole.countP (isSeparator kind) = d.separators.length := by
  obtain ⟨p, ps, hparts⟩ := List.exists_cons_of_length_eq_add_one d.length_parts
  have hunbroken : ∀ q ∈ p :: ps, Unbroken kind q := fun q hq => d.parts_unbroken (hparts ▸ hq)
  obtain ⟨hp, hps⟩ := List.forall_mem_cons.1 hunbroken
  have hlen : d.separators.length = ps.length := by simpa [hparts] using d.length_parts.symm
  rw [whole, hparts, weave, List.countP_append, hp.countP_eq_zero, countP_trail hlen hps fun y hy =>
    d.isSeparator_of_mem hy, Nat.zero_add]

/-- **Numbers without a part**, and that of a first part without symbols: the whole sentence is read. -/
theorem reach_missed {n : Int} (hn : n < 0 ∨ d.parts.length ≤ n ∨ n = 0 ∧ d.first = []) :
    reach kind n d.whole = ⟨d.whole.length, d.separators.length⟩ := by
  have hlen := d.length_parts
  have hcount := d.countP_whole
  rcases hn with hn | hn | ⟨rfl, hfirst⟩
  · rw [reach, reachFrom_missed (.inl (by omega)), hcount, Nat.zero_add]
  · rw [reach, reachFrom_missed (.inr (by omega)), hcount, Nat.zero_add]
  · obtain ⟨p, ps, hparts⟩ := List.exists_cons_of_length_eq_add_one hlen
    obtain rfl : p = [] := by simpa [first, hparts] using hfirst
    have hwhole : d.whole = trail d.separators ps := by rw [whole, hparts]; rfl
    rw [← hcount, hwhole]
    cases hseps : d.separators with
    | nil => rfl
    | cons y ys =>
      have hy := d.isSeparator_of_mem (y := y) (by simp [hseps])
      cases ps with
      | nil => rfl
      | cons q ps =>
        -- the first symbol is counted already, so that the count is never zero
        rw [trail, List.cons_append, reach, reachFrom]
        simp only [hy, if_true]
        rw [if_neg (by omega), reachFrom_missed (.inl (by omega)), List.countP_cons, if_pos hy]
        simp [Nat.add_comm 1]

end Division

open Division

/-- **A part taken out.** The part is what is asked for, and what is left are the other parts with their separators: the
one before the part is taken out with it, or the one behind it if the part is the first. Numbers without a part, and
that of a first part without symbols, are refused and leave the sentence as it is. -/
theorem popPart_division (d : Division kind) :
    (∀ (i : Nat) (hi : i < d.parts.length), (i = 0 → d.first ≠ []) →
      d.whole.popPart kind i = (weave (d.parts.eraseIdx i) (d.separators.eraseIdx (i - 1)), .ok d.parts[i])) ∧
    ∀ n : Int, n < 0 ∨ d.parts.length ≤ n ∨ n = 0 ∧ d.first = [] →
      d.whole.popPart kind n = (d.whole, .error (.outOfRange "sent_num is too big")) := by
  constructor
  · intro i hi hfirst
    obtain ⟨ps, ys, p, zs, qs, rfl, hget, hparts, hseps, h⟩ := d.exists_around hi
    rw [hget, whole, hparts, hseps]
    refine h.popPart ?_
    rintro rfl
    simpa [first, hparts] using hfirst rfl
  · intro n hn
    rw [popPart, d.reach_missed hn]
    simp

/-- a part without symbols between two others, and one at the start -/
theorem popPart_division_sequents :
    popPart "sep" 1 ["sentvar_p", "sep_;", "sep_,", "sentvar_q"] = (["sentvar_p", "sep_,", "sentvar_q"], .ok []) ∧
    popPart "sep" 0 ["sep_;", "sentvar_q"] = (["sep_;", "sentvar_q"], .error (.outOfRange "sent_num is too big")) := by
  obtain ⟨hfound, -⟩ := popPart_division (.of "sep" ["sentvar_p", "sep_;", "sep_,", "sentvar_q"])
  obtain ⟨-, hmissed⟩ := popPart_division (.of "sep" ["sep_;", "sentvar_q"])
  have hpart := hfound 1 (by decide) (by decide)
  have hstart := hmissed 0 (by decide)
  rw [whole_of] at hpart hstart
  exact ⟨hpart, hstart⟩

/-- what a change makes of a part is put in the place of the part: each sentence there, in the
shape that the change gives them -/
structure Grafts (place : Sentence → Sentence) (made result : Outcome Structure) : Prop where
  sentence : ∀ t, made = .ok (.sentence t) → result = .ok (.sentence (place t))
  forked : ∀ bs, made = .ok (.forked bs) → result = .ok (.forked (bs.map (·.map place)))
  nothing : made = .ok .nothing → result = .ok .nothing
  error : ∀ e, made = .error e → result = .error e

theorem embed_forked (front back : Sentence) (bs : List (List Sentence)) :
    embed front back (.forked bs) = pure (.forked (bs.map (·.map fun t => front ++ (t ++ back)))) := by
  simp [embed, Structure.forked, Function.comp_def]

theorem grafts_embed (front back : Sentence) (made : Outcome Structure) :
    Grafts (fun t => front ++ (t ++ back)) made (made >>= embed front back) := by
  constructor
  · rintro t rfl
    simp [embed, pure_ok]
  · rintro bs rfl
    exact embed_forked front back bs
  · rintro rfl
    rfl
  · rintro e rfl
    rfl

/-- when the whole sentence has been read, a change is made at its end -/
theorem grafts_atEnd {n : Int} {count : Nat} (front : Sentence) (hne : front ++ p ≠ [])
    (hreach : reach kind n (front ++ p) = ⟨(front ++ p).length, count⟩) (hn : n ≤ count)
    (hstart : (if count = 0 then (front ++ p).length - 1 else (front ++ p).length) = front.length)
    (f : Sentence → Outcome Structure) : Grafts (front ++ ·) (f p) (onPart kind n f (front ++ p)) := by
  have hpos := List.length_pos_iff.2 hne
  have hplace : (front ++ p).length - 1 + 1 = (front ++ p).length := Nat.sub_add_cancel hpos
  have hbetween : onPart kind n f (front ++ p) = f p >>= embed front [] := by
    rw [← List.append_nil p] at hne hreach ⊢
    rw [onPart_between front p [] hne hreach hn (Nat.min_eq_right (Nat.sub_le _ _))]
    · simp
    · rwa [List.append_nil, hplace]
    · rw [List.append_nil, hplace, List.drop_length]
      rfl
  simpa [hbetween] using grafts_embed front [] (f p)

namespace Division

variable (d : Division kind)

/-- a single symbol stands behind a part if the last part comes next and is empty -/
theorem seen_eq (h : Around kind ps ys p zs qs) (hparts : d.parts = ps ++ p :: qs) (hseps : d.separators = ys ++ zs) :
    (if (trail zs qs).length ≤ 1 then p ++ trail zs qs else p) =
      if ps.length + 2 = d.parts.length ∧ d.last = [] then p ++ d.separators.getLast?.toList else p := by
  cases zs with
  | nil =>
    obtain rfl := List.length_eq_zero_iff.1 h.behind.symm
    simp [trail, hparts]
  | cons z zs =>
    cases qs with
    | nil => cases h.behind
    | cons q qs =>
      cases zs with
      | nil =>
        obtain rfl := List.length_eq_zero_iff.1 (Nat.succ.inj h.behind).symm
        by_cases hq : q = []
        · simp [trail, last, hparts, hseps, hq]
        · simp [trail, last, hparts, hq]
      | cons z' zs =>
        cases qs with
        | nil => cases h.behind
        | cons q' qs => simp [trail, hparts]

/-- **A part of a division changed.** The change gets to see the part, with the last separator if
nothing else stands behind it. -/
theorem grafts_onPart {i : Nat} (hi : i < d.parts.length) (hfirst : i = 0 → d.first ≠ [])
    (f : Sentence → Outcome Structure) : Grafts (fun t => weave (d.parts.set i t) d.separators)
      (f (if i + 2 = d.parts.length ∧ d.last = [] then d.parts[i] ++ d.separators.getLast?.toList else d.parts[i]))
      (d.whole.onPart kind i f) := by
  obtain ⟨ps, ys, p, zs, qs, rfl, hget, hparts, hseps, h⟩ := d.exists_around hi
  have hplace : (fun t => weave (d.parts.set ps.length t) d.separators) = fun t => lead ps ys ++
      (t ++ trail zs qs) := by
    funext t
    rw [hparts, hseps, List.set_append_right _ _ (Nat.le_refl _), Nat.sub_self, List.set_cons_zero,
      weave_split h.before]
  have hfirst : ps = [] → p ≠ [] := by
    rintro rfl
    simpa [first, hparts] using hfirst rfl
  have hwhole : d.whole = weave (ps ++ p :: qs) (ys ++ zs) := by rw [whole, hparts, hseps]
  rw [hplace, hget, ← d.seen_eq h hparts hseps, hwhole, h.onPart hfirst]
  exact grafts_embed _ _ _

theorem onPart_eq_nothing {n : Int} (hn : d.parts.length ≤ n) (hne : d.whole ≠ []) (f : Sentence → Outcome Structure) :
    d.whole.onPart kind n f = .ok .nothing := by
  have hlen := d.length_parts
  have hlt : (d.separators.length : Int) < n := by omega
  simp only [onPart, d.reach_missed (.inr (.inl hn)), List.isEmpty_iff, hne, hlt, if_true, if_false]
  rfl

/-- a part that is not found is taken to be at the end: behind the last symbol, or at this
symbol if there are no separators -/
theorem grafts_onPart_missed {n : Int} (hn : n < 0 ∨ n = 0 ∧ d.first = []) (hne : d.whole ≠ [])
    (f : Sentence → Outcome Structure) : (d.separators ≠ [] → Grafts (d.whole ++ ·) (f []) (d.whole.onPart kind n f)) ∧
      (d.separators = [] → Grafts (d.whole.dropLast ++ ·) (f d.whole.getLast?.toList) (d.whole.onPart kind n f)) := by
  have hreach := d.reach_missed (hn.imp_right .inr)
  have hcount : n ≤ d.separators.length := by omega
  constructor
  · intro hseps
    have hlast := grafts_atEnd (p := []) d.whole (by simpa using hne) (by simpa using hreach) hcount (by simp [hseps]) f
    simpa using hlast
  · intro hseps
    have hwhole := List.dropLast_concat_getLast hne
    rw [← hwhole] at hne hreach ⊢
    simpa using grafts_atEnd _ hne hreach hcount (by simp [hseps]) f

end Division

/-- **A part changed where it stands.** What the change makes of the part is put in its place, and all else stays. This
goes wrong where the last part is empty, since the separator before it is then shown to the change along with the part
before that and is kept all the same; and where the first part is empty or the number is negative, since the change is
then made at the end of the sentence. A number that is too large gives nothing, and in a sentence without symbols there
is nowhere to start. -/
theorem onPart_division (d : Division kind) (f : Sentence → Outcome Structure) :
    (∀ (i : Nat) (hi : i < d.parts.length), (i = 0 → d.first ≠ []) → (i + 2 = d.parts.length → d.last ≠ []) →
      Grafts (fun t => weave (d.parts.set i t) d.separators) (f d.parts[i]) (d.whole.onPart kind i f) ∧
        d.whole.onPart kind i (fun p => .ok (.sentence p)) = .ok (.sentence d.whole)) ∧
    (∀ (i : Nat) (hi : i < d.parts.length), (i = 0 → d.first ≠ []) → i + 2 = d.parts.length → d.last = [] →
      Grafts (fun t => weave (d.parts.set i t) d.separators) (f (d.parts[i] ++ d.separators.getLast?.toList))
        (d.whole.onPart kind i f)) ∧
    (d.whole ≠ [] → ∀ n : Int,
      (d.parts.length ≤ n → d.whole.onPart kind n f = .ok .nothing) ∧
      (n < 0 ∨ n = 0 ∧ d.first = [] →
        (d.separators ≠ [] → Grafts (d.whole ++ ·) (f []) (d.whole.onPart kind n f)) ∧
        (d.separators = [] → Grafts (d.whole.dropLast ++ ·) (f d.whole.getLast?.toList) (d.whole.onPart kind n f)))) ∧
    (d.whole = [] → ∀ n, d.whole.onPart kind n f = .error .noStart) := by
  refine ⟨fun i hi hfirst hlast => ?_, fun i hi hfirst hnext hlast => ?_, fun hne n => ⟨?_, ?_⟩, fun hempty n => ?_⟩
  · have hseen : ¬ (i + 2 = d.parts.length ∧ d.last = []) := fun h => hlast h.1 h.2
    have hgrafts (f : Sentence → Outcome Structure) := d.grafts_onPart hi hfirst f
    simp only [if_neg hseen] at hgrafts
    refine ⟨hgrafts f, ?_⟩
    have hself := (hgrafts fun p => .ok (.sentence p)).sentence _ rfl
    rwa [List.set_getElem_self] at hself
  · have hgrafts := d.grafts_onPart hi hfirst f
    rwa [if_pos ⟨hnext, hlast⟩] at hgrafts
  · exact fun hn => d.onPart_eq_nothing hn hne f
  · exact fun hn => d.grafts_onPart_missed hn hne f
  · rw [hempty]
    rfl

/-- a change at a part between two others, at one before a last part without symbols, at a first part without symbols,
and at parts that there are not -/
theorem onPart_division_sequents :
    onPart "sep" 1 (fun p => .ok (.forked [[p], [p.negate]]))
    ["sentvar_p", "sep_;", "sentvar_q", "sep_;", "sentvar_r"] =
      .ok (.forked [[["sentvar_p", "sep_;", "sentvar_q", "sep_;", "sentvar_r"]],
        [["sentvar_p", "sep_;", "not_~", "sentvar_q", "sep_;", "sentvar_r"]]]) ∧
    onPart "sep" 1 (fun p => .ok (.sentence p)) ["sentvar_p", "sep_;", "sentvar_q", "sep_;"] =
      .ok (.sentence ["sentvar_p", "sep_;", "sentvar_q", "sep_;", "sep_;"]) ∧
    onPart "sep" 0 (fun p => .ok (.sentence p.negate)) ["sep_;", "sentvar_p"] =
      .ok (.sentence ["sep_;", "sentvar_p", "not_~", "(", ")"]) ∧
    onPart "sep" (-1) (fun p => .ok (.sentence p.negate)) ["sentvar_p"] = .ok (.sentence ["not_~", "sentvar_p"]) ∧
    onPart "sep" 1 (fun p => .ok (.sentence p.negate)) ["sentvar_p"] = .ok .nothing ∧
    onPart "sep" 0 (fun p => .ok (.sentence p.negate)) [] = .error .noStart := by
  let negated : Sentence → Outcome Structure := fun p => .ok (.sentence p.negate)
  obtain ⟨hinner, -, -, -⟩ := onPart_division (.of "sep" ["sentvar_p", "sep_;", "sentvar_q", "sep_;", "sentvar_r"])
    fun p => .ok (.forked [[p], [p.negate]])
  obtain ⟨-, hbefore, -, -⟩ := onPart_division (.of "sep" ["sentvar_p", "sep_;", "sentvar_q", "sep_;"]) fun p =>
    .ok (.sentence p)
  obtain ⟨-, -, hfirst, -⟩ := onPart_division (.of "sep" ["sep_;", "sentvar_p"]) negated
  obtain ⟨-, -, hsingle, -⟩ := onPart_division (.of "sep" ["sentvar_p"]) negated
  obtain ⟨-, -, -, hempty⟩ := onPart_division (.of "sep" []) negated
  have hinner := (hinner 1 (by decide) (by decide) (by decide)).1.forked _ rfl
  have hbefore := (hbefore 1 (by decide) (by decide) (by decide) (by decide)).sentence _ rfl
  have hfirst := ((hfirst (by decide) 0).2 (by decide)).1 (by decide) |>.sentence _ rfl
  have hnegative := ((hsingle (by decide) (-1)).2 (by decide)).2 (by decide) |>.sentence _ rfl
  have hlarge := (hsingle (by decide) 1).1 (by decide)
  have hempty := hempty (by decide) 0
  simp only [whole_of] at hinner hbefore hfirst hnegative hlarge hempty
  exact ⟨hinner, hbefore, hfirst, hnegative, hlarge, hempty⟩

end Sentence

end TableauTutor

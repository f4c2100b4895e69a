import TableauTutor.Proofs.Decision
import TableauTutor.Proofs.Steps

/-!
What a proof without mistakes shows. The check goes through the moves of a proof once more: it looks up the sentence
that a move was used on at the end of its branch, and asks whether the strict rule makes everything that the move made
there. It forgets on which branch things were made. Still, a proof in which it finds no mistake, and in which every
branch is closed as a success, shows that its statement is a tautology.

- `exists_true_strand`: a valuation that makes the root true makes all nodes of some branch true, if moves fit.
- `Proof.fits_of_check`: moves fit if the check finds no mistake.
- `Session.check_sound`: the same in a session, about the statement that was typed.
-/

namespace TableauTutor

open Calculus ProofTree

/-! ## Moves that fit -/

section Fits

variable {c : Calculus} {t t' : ProofTree} {u : UsedRule} {s : Sentence}

/-- the sentence that a move names is on the branch of the move -/
def UsedRule.Premiss (u : UsedRule) (t : ProofTree) (s : Sentence) : Prop :=
  ∃ r ∈ strands t, r.leaf.branch = u.branch ∧
    ∃ d, ∃ i : Nat, u.context.lookup "sentenceID" = some d ∧ d.index? = some (i : Int) ∧ r.sentences[i]? = some s

/-- whatever a move made is among what its rule makes of the sentence that the move names -/
def UsedRule.Fits (u : UsedRule) (c : Calculus) (t : ProofTree) : Prop :=
  ∀ s m a, u.Premiss t s → (u.rule, m) ∈ ruleMethods → c.Means s a → ∀ r ∈ strands t, ∀ n ∈ r.path, n.layer = u.layer →
    ∃ qs, m.expand a = some qs ∧ ∃ q ∈ qs.flatten, c.Means n.sentence q

/-- a branch goes on under its name, so that what a move names stays where it is -/
theorem UsedRule.Premiss.grow (h : u.Premiss t s) (hg : Grows t t') : u.Premiss t' s := by
  obtain ⟨r, hr, hbranch, d, i, hd, hi, hs⟩ := h
  obtain ⟨r', hr', ⟨more, hmore⟩, hbranch'⟩ := hg.exists_longer hr
  refine ⟨r', hr', hbranch'.trans hbranch, d, i, hd, hi, ?_⟩
  rw [Strand.sentences, ← hmore, List.map_append, List.getElem?_append_left]
  · exact hs
  · exact (List.getElem?_eq_some_iff.1 hs).1

/-- a move names one sentence, where the names of leaves differ -/
theorem UsedRule.Premiss.unique (hnames : ((strands t).map (·.leaf.branch)).Nodup) {s' : Sentence} (h : u.Premiss t s)
    (h' : u.Premiss t s') : s = s' := by
  obtain ⟨r, hr, hbranch, d, i, hd, hi, hs⟩ := h
  obtain ⟨r', hr', hbranch', d', i', hd', hi', hs'⟩ := h'
  obtain rfl := List.inj_on_of_nodup_map hnames hr hr' (hbranch.trans hbranch'.symm)
  obtain rfl := Option.some.inj (hd.symm.trans hd')
  obtain rfl : i = i' := Int.ofNat.inj (Option.some.inj (hi.symm.trans hi'))
  exact Option.some.inj (hs.symm.trans hs')

theorem UsedRule.Fits.of_grows (h : u.Fits c t') (hg : Grows t t') : u.Fits c t := by
  intro s m a hs hm ha r hr n hn
  obtain ⟨r', hr', hbefore, -⟩ := hg.exists_longer hr
  exact h s m a (hs.grow hg) hm ha r' hr' n (hbefore.subset hn)

theorem premiss_unmarked : u.Premiss t.unmarked s ↔ u.Premiss t s := by
  simp only [UsedRule.Premiss, strands_unmarked, List.mem_map, exists_exists_and_eq_and, Strand.sentences_unmark]
  rfl

theorem fits_unmarked : u.Fits c t.unmarked ↔ u.Fits c t := by
  simp only [UsedRule.Fits, premiss_unmarked]
  exact forall_congr' fun s => forall₅_congr fun m a _ _ _ => forall_unmarked fun _ => Iff.rfl

theorem ProofTree.Speaks.of_grows (h : t'.Speaks c) (hg : Grows t t') : t.Speaks c := by
  intro r hr n hn
  obtain ⟨r', hr', hbefore, -⟩ := hg.exists_longer hr
  exact h r' hr' n (hbefore.subset hn)

/-- what a loose rule makes is all true on one of its branches if it makes only what the strict rule makes -/
theorem exists_true_line {rule : String} {context : Context} {above : List Sentence}
    {nss : List (List Node)} {m : Method} {a : Proposition} {ps : List (List Proposition)} {v : Symbol → Bool}
    (h : c.Derives rule context above (nss.map (·.map (·.sentence))) m s a ps) (hs : c.Holds v s)
    (hnss : ∃ ns ∈ nss, ns ≠ [])
    (hall : ∀ ns ∈ nss, ∀ n ∈ ns, ∃ qs, m.expand a = some qs ∧ ∃ q ∈ qs.flatten, c.Means n.sentence q) :
    ∃ ns ∈ nss, ∀ n ∈ ns, c.Holds v n.sentence := by
  obtain ⟨ns, hns, hne⟩ := hnss
  obtain ⟨n, hn⟩ := List.exists_mem_of_ne_nil ns hne
  obtain ⟨qs, hqs, -⟩ := hall ns hns n hn
  have hsub : ∀ p ∈ ps.flatten, p ∈ qs.flatten := by
    intro p hp
    obtain ⟨b, hb, hpb⟩ := List.mem_flatten.1 hp
    obtain ⟨ys, hys, hyb⟩ := exists_of_forall₂ h.lines.flip hb
    obtain ⟨y, hy, hyp⟩ := exists_of_forall₂ hyb.flip hpb
    obtain ⟨ns, hns, rfl⟩ := List.mem_map.1 hys
    obtain ⟨n, hn, rfl⟩ := List.mem_map.1 hy
    obtain ⟨qs', hqs', q, hq, hnq⟩ := hall ns hns n hn
    obtain rfl := Option.some.inj (hqs'.symm.trans hqs)
    rwa [Means.unique (c := c) hyp hnq]
  obtain hbranch := h.loose.exists_branch h.method hqs hsub ((h.means.holds_iff v).1 hs)
  obtain ⟨ys, hys, htrue⟩ := (holds_branches h.lines v).2 hbranch
  obtain ⟨ns, hns, rfl⟩ := List.mem_map.1 hys
  exact ⟨ns, hns, fun n hn => htrue _ (List.mem_map_of_mem hn)⟩

/-- **If all nodes were made by moves that fit**, a valuation that makes the root true makes all nodes of some branch
true. By induction on the moves: the branch that is true before a move goes on in one that is true after it. -/
theorem exists_true_strand {root : Sentence} {name : String} {log : List UsedRule} {v : Symbol → Bool}
    (h : Built c.Justified root name t log) (hspeaks : t.Speaks c) (hroot : c.Holds v root)
    (hmade : ∀ r ∈ strands t, ∀ n ∈ r.path, n.layer = 0 ∨ ∃ u ∈ log, u.layer = n.layer)
    (hfits : ∀ u ∈ log, u.Fits c t) :
    ∃ r ∈ strands t, ∀ n ∈ r.path, c.Holds v n.sentence := by
  induction h with
  | root => exact ⟨_, by rw [Built.strands_root]; exact List.mem_singleton.2 rfl, by simpa [Strand.path] using hroot⟩
  | @lost t t' log hb hg ih =>
    -- what no move made is in a layer that no move has
    obtain ⟨left, right, r, news, -, hnew, -, ⟨r', hr', -⟩, hlayer, -⟩ := hg.strands_eq
    have hmem : r' ∈ strands t' := by simp [hnew, hr']
    have hpos := hb.nextLayer_pos
    rcases hmade r' hmem _ (leaf_mem_path r') with hzero | ⟨u, hu, hul⟩
    · rw [hlayer r' hr'] at hzero
      omega
    · have := hb.layer_lt u hu
      rw [hul, hlayer r' hr'] at this
      omega
  | @move t t' log u hb hg hlayer hjust ih =>
    have hspeaks' := hspeaks.of_grows hg
    have hmade' : ∀ r ∈ strands t, ∀ n ∈ r.path, n.layer = 0 ∨ ∃ u ∈ log, u.layer = n.layer := by
      intro r hr n hn
      obtain ⟨r', hr', hbefore, -⟩ := hg.exists_longer hr
      have hlt := hb.rising r hr n hn
      rcases hmade r' hr' n (hbefore.subset hn) with hzero | ⟨u', hu', hul⟩
      · exact .inl hzero
      rcases List.mem_append.1 hu' with hu' | hu'
      · exact .inr ⟨u', hu', hul⟩
      · rw [← hul, List.mem_singleton.1 hu', hlayer] at hlt
        omega
    obtain ⟨r, hr, htrue⟩ := ih hspeaks' hmade' fun u' hu' => (hfits u' (List.mem_append_left _ hu')).of_grows hg
    obtain ⟨fs, d, nss, m, s, a, ps, rfl, hbranch, rfl, hnew', hderives⟩ := hjust hspeaks'
    have hne : ∀ ns ∈ nss, ns ≠ [] := fun ns hns => (hnew' ns hns).1
    by_cases hnss : nss = []
    · exact ⟨r, by simpa [hnss] using hr, htrue⟩
    have hlines : lines nss ≠ [] := by
      rw [ne_eq, ← List.length_eq_zero_iff, length_lines hne, List.length_eq_zero_iff]
      exact hnss
    obtain ⟨left, right, hold, hnew⟩ := strands_grown fs d hlines
    rw [hold, List.mem_append, List.mem_cons] at hr
    rcases hr with hr | rfl | hr
    · exact ⟨r, by simp [hnew, hr], htrue⟩
    · -- the branch of the move: one of the new lines is true
      have hmem := strand_mem_plug fs d
      obtain ⟨datum, i, hdatum, hi, hs⟩ := hderives.named
      have hpremiss : u.Premiss (plug fs (node d [])) s := ⟨_, hmem, hbranch, datum, i, hdatum, hi, hs⟩
      have hall := hfits u (by simp) s m a (hpremiss.grow hg) hderives.method hderives.means
      have hline {ns : List Node} (hns : ns ∈ nss) :
          ∃ r' ∈ strands (plug fs (node d (lines nss))), r'.path = fs.map (·.data) ++ [d] ++ ns := by
        obtain ⟨r', hr', rfl⟩ := exists_strand_iff.2 ⟨hns, hne ns hns⟩
        exact ⟨_, below_mem_grown fs d hr', Strand.path_below _ r'⟩
      have hnodes : ∀ ns ∈ nss, ∀ n ∈ ns, ∃ qs, m.expand a = some qs ∧ ∃ q ∈ qs.flatten, c.Means n.sentence q := by
        intro ns hns n hn
        obtain ⟨r', hr', hpath⟩ := hline hns
        refine hall r' hr' n (hpath ▸ List.mem_append_right _ hn) ?_
        rw [(hnew' _ hns).2 n hn, hlayer]
      have hheld : c.Holds v s := by
        obtain ⟨n, hn, rfl⟩ := List.mem_map.1 (List.mem_of_getElem? hs)
        exact htrue n hn
      obtain ⟨ns₀, hns₀⟩ := List.exists_mem_of_ne_nil nss hnss
      obtain ⟨ns, hns, hnstrue⟩ := exists_true_line hderives hheld ⟨ns₀, hns₀, hne ns₀ hns₀⟩ hnodes
      obtain ⟨r', hr', hpath⟩ := hline hns
      exact ⟨r', hr', hpath ▸ List.forall_mem_append.2 ⟨htrue, hnstrue⟩⟩
    · exact ⟨r, by simp [hnew, hr], htrue⟩

end Fits

/-! ## What the check looks at -/

section Collecting

variable {α μ : Type} {f : List μ → α → Outcome (List μ)}

theorem length_le_of_foldlM (hmono : ∀ found a r, f found a = .ok r → found.length ≤ r.length) {as : List α}
    {found r : List μ} (h : as.foldlM f found = .ok r) : found.length ≤ r.length := by
  induction as generalizing found with
  | nil =>
    obtain rfl := Except.ok.inj h
    exact Nat.le_refl _
  | cons a as ih =>
    rw [List.foldlM_cons] at h
    obtain ⟨found', ha, h⟩ := of_bind_eq_ok h
    exact (hmono found a found' ha).trans (ih h)

theorem exists_mem_zipIdx {a : α} {as : List α} (h : a ∈ as) : ∃ i, (a, i) ∈ as.zipIdx := by
  obtain ⟨i, hi⟩ := List.getElem?_of_mem h
  exact ⟨i, List.mk_mem_zipIdx_iff_getElem?.2 hi⟩

theorem eq_nil_of_foldlM (hmono : ∀ found a r, f found a = .ok r → found.length ≤ r.length) {as : List α}
    {found : List μ} (h : as.foldlM f found = .ok []) : found = [] ∧ ∀ a ∈ as, f [] a = .ok [] := by
  induction as generalizing found with
  | nil => exact ⟨Except.ok.inj h, by simp⟩
  | cons a as ih =>
    rw [List.foldlM_cons] at h
    obtain ⟨found', ha, h⟩ := of_bind_eq_ok h
    obtain ⟨rfl, hrest⟩ := ih h
    obtain rfl : found = [] := List.length_eq_zero_iff.1 (Nat.le_zero.1 (hmono found a [] ha))
    exact ⟨rfl, List.forall_mem_cons.2 ⟨ha, hrest⟩⟩

theorem foldlM_eq_nil_iff (hmono : ∀ found a r, f found a = .ok r → found.length ≤ r.length) {as : List α} :
    as.foldlM f [] = .ok [] ↔ ∀ a ∈ as, f [] a = .ok [] := by
  refine ⟨fun h => (eq_nil_of_foldlM hmono h).2, fun h => ?_⟩
  induction as with
  | nil => rfl
  | cons a as ih =>
    obtain ⟨hfirst, hrest⟩ := List.forall_mem_cons.1 h
    rw [List.foldlM_cons, hfirst]
    exact ih hrest

end Collecting

namespace Proof

variable {e : Setting} {p : Proof} {read : Sentence → Outcome String} {u : UsedRule}

theorem Picking.premiss {rule : String} {x : Pending} {fs : List Frame} {d : Node} {y : Sentence} {m : Method}
    {bs : List (List Sentence)} (h : Picking e p rule x fs d y m bs) (token : Int) : (p.solverMove rule x token).Premiss
    p.tree y := by
  have hmem : ⟨fs.map (·.data), d⟩ ∈ strands p.tree := by
    rw [h.tree]
    exact strand_mem_plug fs d
  exact ⟨_, hmem, h.branch, .whole x.position, x.position, rfl, rfl, h.named⟩

theorem length_le_of_noted {found r : List Mistake} {y : Sentence × Nat} (h : noted e read p u found y = .ok r) :
    found.length ≤ r.length := by
  obtain ⟨_ | m, -, hr⟩ := of_bind_eq_ok h
  · rw [← Except.ok.inj hr]
  · rw [← Except.ok.inj hr]
    split <;> simp

theorem noted_eq_nil_iff {y : Sentence × Nat} :
    noted e read p u [] y = .ok [] ↔ p.mistakeIn (e.turn y.2) read u y.1 = .ok none := by
  constructor
  · intro h
    obtain ⟨_ | m, hm, hr⟩ := of_bind_eq_ok h
    · exact hm
    · cases hr
  · intro h
    simp only [noted, h]
    rfl

theorem mem_made {y : Sentence} : y ∈ p.made u ↔ ∃ n ∈ p.tree.nodes, n.layer = u.layer ∧ n.layer ≠ 0 ∧
    n.sentence = y := by
  simp [made, madeNodes, and_assoc]

/-- what moves made is collected if every node is the root or was made by a move -/
theorem byMove_eq_ok_iff {moves : List (UsedRule × List Sentence)} : p.byMove = .ok moves ↔
    (∀ n ∈ p.tree.nodes, n.layer = 0 ∨ ∃ u ∈ p.used, u.layer = n.layer) ∧ moves = p.used.map fun u =>
    (u, p.made u) := by
  have hfind : p.madeNodes.find? (fun n => !(p.used.map (·.layer)).contains n.layer) = none ↔
      ∀ n ∈ p.tree.nodes, n.layer = 0 ∨ ∃ u ∈ p.used, u.layer = n.layer := by
    simp [madeNodes, or_iff_not_imp_left]
  rw [← hfind, byMove]
  cases p.madeNodes.find? (fun n => !(p.used.map (·.layer)).contains n.layer) with
  | some n => exact iff_of_false nofun nofun
  | none =>
    dsimp only
    exact ⟨fun h => ⟨rfl, (Except.ok.inj h).symm⟩, fun h => congrArg Except.ok h.2.symm⟩

/-- **A check that finds nothing** has looked at everything that moves made, each time on another
occasion, and there is nothing else. -/
theorem of_check_eq_nil (h : p.check e read = .ok []) :
    (∀ n ∈ p.tree.nodes, n.layer = 0 ∨ ∃ u ∈ p.used, u.layer = n.layer) ∧
      ∀ u ∈ p.used, ∀ n ∈ p.tree.nodes, n.layer ≠ 0 → n.layer = u.layer →
        ∃ i j, p.mistakeIn ((e.turn i).turn j) read u n.sentence = .ok none := by
  obtain ⟨moves, hmoves, h⟩ := of_bind_eq_ok h
  obtain ⟨hrecorded, rfl⟩ := byMove_eq_ok_iff.1 hmoves
  have hall := (foldlM_eq_nil_iff fun _ _ _ => length_le_of_foldlM fun _ _ _ => length_le_of_noted).1 h
  refine ⟨hrecorded, fun u hu n hn hzero hlayer => ?_⟩
  obtain ⟨i, hi⟩ := exists_mem_zipIdx (List.mem_map_of_mem hu)
  obtain ⟨j, hj⟩ := exists_mem_zipIdx (mem_made.2 ⟨n, hn, hlayer, hzero, rfl⟩)
  have hnone := (foldlM_eq_nil_iff fun _ _ _ => length_le_of_noted).1 (hall _ hi)
  exact ⟨i, j, noted_eq_nil_iff.1 (hnone _ hj)⟩

/-- a conclusion without a mistake is spelled like one of those of the strict rule -/
theorem of_mistakeIn_eq_none {y : Sentence} (h : p.mistakeIn e read u y = .ok none) :
    ∃ plain s m bs t k, e.calculus.toPlain e.lexer y = .ok plain ∧ p.premiss e u = .ok s ∧ method? u.rule = some m ∧
      e.calculus.strict e.lexer m s = .ok (some bs) ∧ bs.flatten[k]? = some t ∧
      e.calculus.toPlain (e.lexer.turn k) t = .ok plain := by
  obtain ⟨plain, hplain, h⟩ := of_bind_eq_ok h
  obtain ⟨s, hs, h⟩ := of_bind_eq_ok h
  split at h
  · rename_i m hm
    obtain ⟨_ | bs, hbs, h⟩ := of_bind_eq_ok h
    · obtain ⟨shown, -, h⟩ := of_bind_eq_ok h
      cases h
    obtain ⟨entailed, hentailed, h⟩ := of_bind_eq_ok h
    have hmem : plain ∈ entailed := by
      by_contra hnot
      have hfalse : entailed.contains plain = false := by simpa using hnot
      rw [hfalse] at h
      obtain ⟨shown, -, h⟩ := of_bind_eq_ok h
      cases h
    obtain ⟨k, hk⟩ := List.getElem?_of_mem hmem
    obtain ⟨⟨t, k⟩, ht, hsame⟩ := getElem?_of_mapM hentailed hk
    exact ⟨plain, s, m, bs, t, k, hplain, hs, hm, hbs, List.mk_mem_zipIdx_iff_getElem?.1 (List.mem_of_getElem? ht),
      hsame⟩
  · cases h

theorem lookup_of_mapM {β γ : Type} {f : String × β → Outcome (String × γ)} (hf : ∀ x y, f x = .ok y → y.1 = x.1)
    {xs : List (String × β)} {ys : List (String × γ)} (h : xs.mapM f = .ok ys) {k : String} {c : γ}
    (hk : ys.lookup k = some c) :
    ∃ b, xs.lookup k = some b ∧ f (k, b) = .ok (k, c) := by
  replace h := forall₂_of_mapM h
  induction h with
  | nil => cases hk
  | @cons x y _ _ hy _ ih =>
    obtain ⟨a, b⟩ := x
    obtain ⟨a', c'⟩ := y
    obtain rfl : a' = a := hf _ _ hy
    rw [List.lookup_cons] at hk ⊢
    split at hk
    · rename_i heq
      obtain rfl := beq_iff_eq.1 heq
      obtain rfl := Option.some.inj hk
      exact ⟨b, by simp, hy⟩
    · obtain ⟨b', hb', hfb⟩ := ih hk
      exact ⟨b', by simp [hb'], hfb⟩

theorem lookup_of_filter {β : Type} {f : String → Bool} {xs : List (String × β)} {k : String} {b : β}
    (h : (xs.filter fun x => f x.1).lookup k = some b) : xs.lookup k = some b := by
  induction xs with
  | nil => simp at h
  | cons x xs ih =>
    obtain ⟨a, c⟩ := x
    by_cases hk : k = a
    · subst hk
      cases hkeep : f k with
      | true => simpa [hkeep] using h
      | false =>
        -- the filter leaves no entry of the name
        have hnone : (xs.filter fun x => f x.1).lookup k = none := by
          rw [List.lookup_eq_none_iff]
          intro y hy
          rw [bne_iff_ne]
          rintro rfl
          have := (List.mem_filter.1 hy).2
          rw [hkeep] at this
          cases this
        simp [hkeep, hnone] at h
    · have hkb : (k == a) = false := by simpa using hk
      rw [List.lookup_cons, hkb]
      refine ih ?_
      rw [List.filter_cons] at h
      split at h
      · rwa [List.lookup_cons, hkb] at h
      · exact h

theorem key_of_pick {sentences : List Sentence} (x : String × Datum) (y : String × Sentence)
    (h : (match x.2.index? with
      | none => throw notIndex
      | some i => match pick? sentences i with
        | some s => return (x.1, s)
        | none => throw (.outOfRange "no such sentence") : Outcome (String × Sentence)) = .ok y) : y.1 = x.1 := by
  split at h
  · cases h
  · split at h
    · rw [← Except.ok.inj h]
    · cases h

/-- **The check finds the sentence** that a move was used on. -/
theorem premiss_unique (hnames : ((strands p.tree).map (·.leaf.branch)).Nodup) {s s' : Sentence}
    (h : p.premiss e u = .ok s) (hs : u.Premiss p.tree s') : s = s' := by
  obtain ⟨r, hr, hbranch, d, i, hd, hi, hget⟩ := hs
  obtain ⟨named, hnamed, h⟩ := of_bind_eq_ok h
  have hlookup : named.lookup "sentenceID" = some s := by
    revert h
    cases named.lookup "sentenceID" with
    | none => exact fun h => by cases h
    | some t => exact fun h => congrArg some (Except.ok.inj h)
  obtain ⟨sentences, hsentences, hnamed⟩ := of_bind_eq_ok hnamed
  split at hnamed
  · rename_i items hitems
    obtain ⟨d', hd', hpick⟩ := lookup_of_mapM key_of_pick hnamed hlookup
    let keys := (items.filter (·.type == "sentenceID")).map (·.key)
    replace hd' : (u.context.filter fun x => keys.contains x.1).lookup "sentenceID" = some d' := hd'
    obtain rfl : d' = d := Option.some.inj ((lookup_of_filter (f := keys.contains) hd').symm.trans hd)
    -- the branch of the move is the strand that the move names a sentence of
    obtain ⟨q, hq, hsentences⟩ := of_bind_eq_ok hsentences
    obtain rfl := Except.ok.inj hsentences
    obtain ⟨fs, l, hfound⟩ := found_of_leaf hq
    have hmem : q.strand ∈ strands p.tree := by
      rw [hfound.strand, hfound.tree]
      exact strand_mem_plug fs l
    have hleaf : q.strand.leaf.branch = r.leaf.branch := by rw [hbranch, hfound.strand, ← hfound.branch]
    obtain rfl := strand_unique hnames hmem hr hleaf
    rw [hi] at hpick
    have hpath : q.path.map (·.sentence) = q.strand.sentences := by rw [Place.path_eq]; rfl
    have hpos : (0 : Int) ≤ (i : Int) := Int.natCast_nonneg i
    simp only [hpath, pick?, resolve?, if_pos hpos] at hpick
    rw [if_pos (by simpa using (List.getElem?_eq_some_iff.1 hget).1)] at hpick
    simp only [Int.toNat_natCast, Option.bind_some, hget] at hpick
    exact (Prod.mk.inj (Except.ok.inj hpick)).2.symm
  · cases hnamed

/-- two nodes that are read as the same formula say the same, even on two occasions -/
theorem means_of_toPlain {c : Calculus} {x x' : Lexer} (hx : c.HasLexer x) (hx' : c.HasLexer x') {y z plain : Sentence}
    {a b : Proposition} (hy : c.toPlain x y = .ok plain) (hz : c.toPlain x' z = .ok plain) (ha : c.Means y a)
    (hb : c.Means z b) :
    a = b := by
  obtain ⟨py, hpy, hra, -⟩ := toPlain_reads hx ha
  obtain ⟨pz, hpz, hrb, -⟩ := toPlain_reads hx' hb
  obtain rfl := Except.ok.inj (hpy.symm.trans hy)
  obtain rfl := Except.ok.inj (hpz.symm.trans hz)
  exact hra.unique hrb

/-- **Moves fit** if the check finds no mistake. -/
theorem fits_of_check (hx : e.HasLexer) (hsane : p.tree.Sane e.calculus) (hpos : ∀ u ∈ p.used, 0 < u.layer)
    (h : p.check e read = .ok []) : ∀ u ∈ p.used, u.Fits e.calculus p.tree := by
  obtain ⟨-, hall⟩ := of_check_eq_nil h
  intro u hu s m a hs hm ha r hr n hn hlayer
  have hzero : n.layer ≠ 0 := by
    have := hpos u hu
    omega
  obtain ⟨i, j, hnone⟩ := hall u hu n (mem_nodes.2 ⟨r, hr, hn⟩) hzero hlayer
  obtain ⟨plain, s', m', bs, y, k, hplain, hs', hm', hbs, hy, hyplain⟩ := of_mistakeIn_eq_none hnone
  have hx : Setting.HasLexer ((e.turn i).turn j) := (hx.turn i).turn j
  obtain rfl := premiss_unique hsane.names hs' hs
  obtain rfl : m' = m := Option.some.inj (hm'.symm.trans (method?_of_mem hm))
  obtain ⟨r', hstrict, hrel⟩ := strict_means hx m' ha
  obtain rfl := Except.ok.inj (hstrict.symm.trans hbs)
  generalize hqs : m'.expand a = o at hrel
  cases hrel with
  | @some _ qs hrel =>
    -- the conclusion is read as the same formula as one that the strict rule makes
    obtain ⟨b, hb, hyb⟩ := List.mem_flatten.1 (List.mem_of_getElem? hy)
    obtain ⟨ps, hps, hbp⟩ := exists_of_forall₂ hrel hb
    obtain ⟨q, hq, hyq⟩ := exists_of_forall₂ hbp hyb
    obtain ⟨an, han⟩ := hsane.means r hr n hn
    obtain rfl := means_of_toPlain hx (hx.turn k) hplain hyplain han hyq
    exact ⟨qs, rfl, an, List.mem_flatten.2 ⟨ps, hps, hq⟩, han⟩

/-- the mark of a success says that the branch is contradictory, if its sentences say something -/
def Truthful (c : Calculus) (ss : List Sentence) (v : Closing) : Prop :=
  (∀ s ∈ ss, ∃ a, c.Means s a) → v.success = true → c.Contradictory ss

theorem closesBy_truthful (c : Calculus) : ClosesBy (Truthful c) c := by
  intro ss used v info h hmeans hsuccess
  rcases closure_means hmeans used with ⟨i, j, info', heq, hcontra⟩ | ⟨info', heq, -⟩ | ⟨heq, -⟩
  · exact hcontra
  · obtain ⟨rfl, -⟩ := Prod.mk.inj (Option.some.inj (Except.ok.inj (heq.symm.trans h)))
    cases hsuccess
  · cases heq.symm.trans h

/-- **A proof without mistakes** whose branches are all closed as successes has a root that cannot be true. -/
theorem not_holds_of_check {st root : Sentence} {name : String} (hx : e.HasLexer)
    (hp : Sound e.calculus st root name [] p) (hmarked : p.tree.Marked (Truthful e.calculus))
    (h : p.check e read = .ok [])
    (hsuccess : p.tree.isSuccessful = true) (v : Symbol → Bool) : ¬ e.calculus.Holds v root := by
  intro hroot
  obtain ⟨hmade, -⟩ := of_check_eq_nil h
  have hfits := fits_of_check hx hp.sane hp.orderly.layers.2 h
  have hspeaks : p.tree.unmarked.Speaks e.calculus := speaks_unmarked.2 hp.sane.means
  have hlayers : ∀ r ∈ strands p.tree.unmarked, ∀ n ∈ r.path, n.layer = 0 ∨ ∃ u ∈ p.used, u.layer = n.layer :=
    (forall_unmarked fun _ => Iff.rfl).2 fun r hr n hn => hmade n (mem_nodes.2 ⟨r, hr, hn⟩)
  obtain ⟨r', hr', htrue⟩ := exists_true_strand hp.orderly.built hspeaks hroot hlayers fun u hu =>
    fits_unmarked.2 (hfits u hu)
  -- the true branch has the mark of a success, so it is contradictory
  rw [strands_unmarked] at hr'
  obtain ⟨r, hr, rfl⟩ := List.mem_map.1 hr'
  obtain ⟨w, hw, hsucc⟩ := Option.map_eq_some_iff.1 ((isSuccessful_iff p.tree).1 hsuccess r hr)
  have hcontra := hmarked r hr r.above r.leaf List.prefix_rfl w hw (hp.sane.means_sentences hr) hsucc
  refine hcontra.not_holds v (List.forall_mem_map.2 fun n hn => ?_)
  exact htrue n.unmark (by rw [Strand.path_unmark]; exact List.mem_map_of_mem hn)

end Proof

/-! ## In a session -/

namespace Session

variable {s t : Session} {c : Calculus} {text : String} {φ root : Sentence} {name : String} {p : Proof}

/-- what can be asked of a session to work on its proof -/
inductive Task where
  | use (rule : String) (context : Context)
  | close (branch : String)
  | jump (target : String)
  | next
  | undo (amount : Int)
  | solve
  | colours (level : Int)

/-- a task carried out -/
def Task.act : Task → Act Unit
  | use rule context => do let _ ← useRule rule context
  | close branch => do let _ ← dealClosure branch
  | jump target => Session.jump target
  | next => do let _ ← Session.next
  | undo amount => do let _ ← Session.undo amount
  | solve => do let _ ← Session.solve
  | colours level => changeAccessibility level

/-- tasks carried out one after another, whether they succeed or fail -/
def work (s : Session) (tasks : List Task) : Session := tasks.foldl (fun s task => (exec task.act s).2) s

/-- the session works with a calculus and a lexer on a proof of which something is true -/
structure WorksOn (c : Calculus) (x : Lexer) (I : Proof → Prop) (s : Session) : Prop where
  calculus : s.calculus = .ok c
  lexer : s.lexer = x
  proof : ∃ p, s.proof = some p ∧ I p

section WorksOn

variable {x : Lexer} {I : Proof → Prop} {α : Type}

theorem WorksOn.setting (h : s.WorksOn c x I) : s.setting = .ok ⟨c, x, s.config.accessibility⟩ := by
  simp only [Session.setting, h.calculus, h.lexer, ok_bind, pure_ok]

theorem worksOn_withProof {f : Setting → Work α} (h : ∀ level, Keeps I (f ⟨c, x, level⟩)) :
    Keeps (WorksOn c x I) (withProof f) := by
  intro s hs
  obtain ⟨p, hp, hI⟩ := hs.proof
  rw [exec_withProof hs.setting hp rfl]
  exact ⟨hs.calculus, hs.lexer, _, rfl, h s.config.accessibility p hI⟩

/-- **Every task** keeps what is kept by the steps of a proof. -/
theorem worksOn_task (hstep : ∀ {level p p'}, Proof.Step ⟨c, x, level⟩ p p' → I p → I p') (task : Task) :
    Keeps (WorksOn c x I) task.act := by
  intro s hs
  obtain ⟨p, hp, hI⟩ := hs.proof
  have he := hs.setting
  have hwithin {y : Act Unit} (h : Keeps (s.Within ⟨c, x, s.config.accessibility⟩ p) y) :
      (exec y s).2.WorksOn c x I := by
    obtain ⟨p', n, u, hsteps, heq⟩ := h s (.refl hp)
    rw [heq]
    exact ⟨hs.calculus, hs.lexer, p', rfl, hsteps.induct hstep hI⟩
  cases task with
  | use rule context => exact hwithin ((keeps_useRule he rule context).bind fun _ => .pure _)
  | close branch => exact hwithin ((keeps_dealClosure he branch).bind fun _ => .pure _)
  | jump target => exact hwithin (keeps_jump he target)
  | next => exact hwithin ((keeps_next he).bind fun _ => .pure _)
  | undo amount => exact hwithin ((keeps_undo amount).bind fun _ => .pure _)
  | solve => exact hwithin ((keeps_solve he).bind fun _ => .pure _)
  | colours level =>
    -- the configuration and its file change, nothing else
    obtain ⟨files, hfiles⟩ := changeAccessibility_frame level s
    rw [Task.act, hfiles]
    exact ⟨hs.calculus, hs.lexer, p, hp, hI⟩

end WorksOn

/-- a session with a sound proof whose marks are truthful -/
structure Proves (c : Calculus) (x : Lexer) (φ root : Sentence) (name : String) (s : Session) : Prop where
  calculus : s.calculus = .ok c
  lexer : s.lexer = x
  proof : ∃ p, s.proof = some p ∧ p.Sound c φ root name [] ∧ p.tree.Marked (Proof.Truthful c)

theorem Proves.setting {x : Lexer} (h : s.Proves c x φ root name) : s.setting = .ok ⟨c, x, s.config.accessibility⟩ := by
  simp only [Session.setting, h.calculus, h.lexer, ok_bind, pure_ok]

theorem sound_truthful {e : Setting} (hx : e.HasLexer) {p p' : Proof} (hstep : Proof.Step e p p')
    (hp : p.Sound e.calculus φ root name [] ∧ p.tree.Marked (Proof.Truthful e.calculus)) :
    p'.Sound e.calculus φ root name [] ∧ p'.tree.Marked (Proof.Truthful e.calculus) := by
  obtain ⟨hsound, hmarked⟩ := hp
  have horderly : p.Orderly (fun _ _ _ => True) (Proof.Truthful e.calculus) φ root name [] :=
    ⟨hsound.orderly.statement, hsound.orderly.built.mono fun _ _ _ _ => trivial, List.nil_prefix, hmarked⟩
  have horderly' := hstep.orderly (fun _ _ _ _ => trivial) (fun _ _ => trivial) (Proof.closesBy_truthful _) horderly
  exact ⟨hstep.sound (fun _ => hx) hsound, horderly'.marked⟩

/-- **Every task** keeps the proof sound. -/
theorem keeps_task {x : Lexer} (hx : c.HasLexer x) (task : Task) : Keeps (Proves c x φ root name) task.act := by
  intro s hs
  have hstep {level : Int} {p p' : Proof} (h : Proof.Step ⟨c, x, level⟩ p p')
      (hp : p.Sound c φ root name [] ∧ p.tree.Marked (Proof.Truthful c)) :
      p'.Sound c φ root name [] ∧ p'.tree.Marked (Proof.Truthful c) := sound_truthful (e := ⟨c, x, level⟩) hx h hp
  have hkept := worksOn_task hstep task s ⟨hs.calculus, hs.lexer, hs.proof⟩
  exact ⟨hkept.calculus, hkept.lexer, hkept.proof⟩

/-- what is true of a proof with nothing but its root, and kept when a branch is closed, is
true of the proof that is started -/
theorem started_of (e : Setting) {a : Proposition} (hroot : e.calculus.Means root a) {I : Proof → Prop}
    (hfresh : I (.fresh φ root name)) (hclose : Keeps I (Proof.dealClosure e name)) :
    I (startedProof e.calculus φ root name) := by
  have hsane : Sane e.calculus (Proof.fresh φ root name).tree := .root ⟨a, hroot⟩ name
  have htree : (Proof.fresh φ root name).tree = plug [] (.node { sentence := root, branch := name } []) := rfl
  obtain ⟨r, hdeal, -⟩ := Proof.exec_dealClosure_plug hsane htree
  change exec (Proof.dealClosure e name) _ = _ at hdeal
  have hclosed := hclose _ hfresh
  rwa [hdeal] at hclosed

/-- **A proof that was started**, with a lexer that was made for one of the calculi. With signs it is the lexer of the
calculus, and the root says something. -/
theorem started_newProof {s₁ : Session} (hlexer : ∃ c : Calculus, c.HasLexer s.lexer)
    (h : exec (newProof text) s = (.ok none, s₁)) : ∃ c st root name, s.calculus = .ok c ∧
      (c = .signed → c.HasLexer s.lexer) ∧ (c = .signed → (ProofTree.root root name).Sane c) ∧
      s₁ = { s with proof := some (exec (Proof.dealClosure ⟨c, s.lexer, s.config.accessibility⟩ name)
        (.fresh st root name)).2 } := by
  obtain ⟨ts, e, p, htokens, he, hchecked, hp, rfl⟩ := newProof_eq_ok h
  obtain ⟨c, hc, he⟩ := of_bind_eq_ok he
  obtain rfl := Except.ok.inj he
  obtain ⟨root, hroot, hp⟩ := of_bind_eq_ok hp
  obtain rfl := Except.ok.inj hp
  have hx : c = .signed → c.HasLexer s.lexer := by
    rintro rfl
    exact hasLexer_of_prepare hlexer hroot
  refine ⟨c, .ofTokens ts, root, _, hc, hx, fun hsigned => .root ?_ _, rfl⟩
  obtain ⟨a, ha⟩ := expresses_of_tokenize (hx hsigned) htokens hchecked
  obtain ⟨root', hroot', hmeans⟩ := toNode_means (hx hsigned) ha.negate
  obtain rfl := Except.ok.inj (hroot'.symm.trans hroot)
  exact ⟨_, hmeans⟩

theorem proves_newProof (h : s.Accepts c text φ) : ∃ a root name s₁, φ.Expresses a ∧ c.Means root (.neg a) ∧
    exec (newProof text) s = (.ok none, s₁) ∧ s₁.Proves c s.lexer φ root name := by
  obtain ⟨a, root, name, ha, hroot, hnew⟩ := exec_newProof h
  let e : Setting := Accepts.setting s c
  have hsound : (startedProof e.calculus φ root name).Sound e.calculus φ root name [] :=
    started_of e hroot (.fresh ⟨_, hroot⟩) (Proof.keeps_dealClosure_sound name)
  have horderly : (startedProof e.calculus φ root name).Orderly (fun _ _ _ => True) (Proof.Truthful c) φ root name [] :=
    started_of e hroot .fresh (Proof.keeps_dealClosure (Proof.closesBy_truthful c) name)
  exact ⟨a, root, name, _, ha, hroot, hnew, h.calculus, rfl, _, rfl, hsound, horderly.marked⟩

/-- **A proof without mistakes** whose branches are all closed as successes shows that its statement is a tautology: let
a text be accepted as a statement, and let any tasks be carried out on the proof that is started for it. -/
theorem check_sound (h : s.Accepts c text φ) :
    ∃ s₁, exec (newProof text) s = (.ok none, s₁) ∧ ∀ tasks, ∃ p e, (s₁.work tasks).proof = some p ∧
      (s₁.work tasks).setting = .ok e ∧ e.calculus = c ∧
      (p.check e (s₁.work tasks).read = .ok [] → p.tree.isSuccessful = true → φ.Tautology) := by
  obtain ⟨a, root, name, s₁, ha, hroot, hnew, hproves⟩ := proves_newProof h
  refine ⟨s₁, hnew, fun tasks => ?_⟩
  have hall : (s₁.work tasks).Proves c s.lexer φ root name := by
    induction tasks using List.reverseRecOn with
    | nil => exact hproves
    | append_singleton tasks task ih =>
      rw [work, List.foldl_append]
      exact keeps_task h.hasLexer task _ ih
  obtain ⟨p, hp, hsound, hmarked⟩ := hall.proof
  refine ⟨p, _, hp, hall.setting, rfl, fun hcheck hsuccess => ?_⟩
  let e : Setting := ⟨c, s.lexer, (s₁.work tasks).config.accessibility⟩
  have hlexer : e.HasLexer := h.hasLexer
  exact (tautology_iff ha hroot).2 (Proof.not_holds_of_check (e := e) hlexer hsound hmarked hcheck hsuccess)

/-- a proof of `p v ~p` in three tasks -/
def excludedMiddleTasks : List Task :=
  [.use "false or" [("sentenceID", .whole 0), ("tokenID", .whole 2)], .use "double not" [("sentenceID", .whole 2)],
    .close "Czerwona"]

theorem check_sound_excluded_middle :
    signedSession.Accepts .signed "p v ~p" excludedMiddle ∧
      (∃ s₁ p e, exec (newProof "p v ~p") signedSession = (.ok none, s₁) ∧
        (s₁.work excludedMiddleTasks).proof = some p ∧
        p.check e (s₁.work excludedMiddleTasks).read = .ok [] ∧ p.tree.isSuccessful = true) ∧
      excludedMiddle.Tautology := by
  obtain ⟨s₁, hnew, hall⟩ := check_sound signedSession_accepts
  obtain ⟨p, e, hp, he, -, hsound⟩ := hall excludedMiddleTasks
  have hrun : (let s := (exec (newProof "p v ~p") signedSession).2.work excludedMiddleTasks
      s.proof.bind fun p => s.setting.toOption.bind fun e => (p.check e s.read).toOption.map fun ms =>
        ms.isEmpty && p.tree.isSuccessful) = some true := by decide +kernel
  simp only [hnew, hp, he, Option.bind_some, Except.toOption] at hrun
  split at hrun
  · rename_i ms hms
    have hempty : ms = [] ∧ p.tree.isSuccessful = true := by simpa using hrun
    rw [hempty.1] at hms
    exact ⟨signedSession_accepts, ⟨s₁, p, e, hnew, hp, hms, hempty.2⟩, hsound hms hempty.2⟩
  · simp at hrun

end Session

end TableauTutor

import Mathlib.Data.List.Infix
import TableauTutor.Proofs.MainConnective
import TableauTutor.Proofs.Moves
import TableauTutor.Proofs.Naming

/-!
What waits for the solver. An entry of the agenda holds a sentence, and the branch and the position where it is to be
found; the solver works on the sentence and records the position. Entries are read off the tree, put on other branches
when a branch parts, and kept while the tree grows. The sentence of an entry is found at its position all the same,
whatever the sentences of the tree are, also if they say nothing.

- `apt_agenda`, `apt_enlist`, `Grown.spread`: entries that are made are found in the tree.
- `Attends.solve`: the solver keeps what is kept when an entry that is found in the tree is taken apart.
-/

namespace TableauTutor

open ProofTree Calculus

/-! ## Results that fit the state -/

section Leads

variable {σ α β : Type} {J P : σ → Prop} {Q : α → σ → Prop} {R : β → σ → Prop}

/-- from a state with `J` and `P` the computation keeps `J`, and a result and the state that it comes with fit -/
def Leads (J P : σ → Prop) (x : ExceptT Fault (StateM σ) α) (Q : α → σ → Prop) : Prop :=
  ∀ s, J s → P s → J (exec x s).2 ∧ ∀ a t, exec x s = (.ok a, t) → Q a t

namespace Leads

theorem pure {a : α} (h : ∀ s, J s → P s → Q a s) : Leads J P (Pure.pure a : Effect σ α) Q := by
  intro s hs hp
  refine ⟨hs, fun b t hrun => ?_⟩
  cases hrun
  exact h s hs hp

theorem lift {x : Outcome α} (h : ∀ a s, J s → P s → x = .ok a → Q a s) :
    Leads J P (Outcome.lift x : Effect σ α) Q := by
  intro s hs hp
  refine ⟨hs, fun a t hrun => ?_⟩
  rw [exec_lift, Prod.mk.injEq] at hrun
  obtain ⟨hx, rfl⟩ := hrun
  exact h a s hs hp hx

theorem bind {x : Effect σ α} {f : α → Effect σ β} (hx : Leads J P x Q)
    (hf : ∀ a, Leads J (Q a) (f a) R) : Leads J P (x >>= f) R := by
  intro s hs hp
  obtain ⟨hkept, hres⟩ := hx s hs hp
  rw [exec_bind]
  rcases hrun : exec x s with ⟨f | a, t⟩ <;> rw [hrun] at hkept
  · exact ⟨hkept, fun b u h => by cases h⟩
  · exact hf a t hkept (hres a t hrun)

theorem weaken {P' : σ → Prop} {x : Effect σ α} (h : Leads J P' x Q) (hP : ∀ s, P s → P' s) : Leads J P x Q :=
  fun s hs hp => h s hs (hP s hp)

theorem get_bind {f : σ → Effect σ β} (hf : ∀ t, Leads J (fun s => P s ∧ s = t) (f t) R) :
    Leads J P (MonadState.get >>= f) R := by
  intro s hs hp
  rw [exec_bind, exec_get]
  exact hf s s hs ⟨hp, rfl⟩

theorem of_keeps {x : Effect σ α} (h : Keeps J x) : Leads J P x fun _ _ => True :=
  fun s hs _ => ⟨h s hs, fun _ _ _ => trivial⟩

theorem ite {b : Prop} [Decidable b] {x y : Effect σ α} (hx : Leads J P x Q) (hy : Leads J P y Q) :
    Leads J P (if b then x else y) Q := by
  split
  · exact hx
  · exact hy

theorem foldlM {P : β → σ → Prop} {f : β → α → Effect σ β} {l : List α}
    (h : ∀ b, ∀ a ∈ l, Leads J (P b) (f b a) P) (b : β) : Leads J (P b) (l.foldlM f b) P := by
  induction l generalizing b with
  | nil => exact .pure fun _ _ hp => hp
  | cons a l ih =>
    rw [List.foldlM_cons]
    exact (h b a List.mem_cons_self).bind fun c => ih (fun b a ha => h b a (List.mem_cons_of_mem _ ha)) c

end Leads

end Leads

/-! ## Entries that are found in a tree -/

section Stands

variable {e : Setting} {t t' : ProofTree} {x : Pending} {a a' : Agenda} {rule : String}

/-- an entry for the rule is read off the sentence: it has the sentence without a sign, and
the rule takes the sentence apart -/
def ReadOff (e : Setting) (s : Sentence) (rule : String) (x : Pending) : Prop :=
  e.calculus.toPlain e.lexer s = .ok x.sentence ∧ e.calculus.ruleFor e.lexer s = .ok (some rule)

theorem exists_toPlain {s : Sentence}
    (hsigned : e.calculus = .signed → e.HasLexer ∧ ∃ a, e.calculus.Means s a) :
    ∃ plain, e.calculus.toPlain e.lexer s = .ok plain := by
  cases hc : e.calculus with
  | unsigned => exact ⟨s, rfl⟩
  | signed =>
    obtain ⟨hx, a, ha⟩ := hsigned hc
    rw [Setting.HasLexer, hc] at hx
    rw [hc] at ha
    obtain ⟨plain, hplain, -⟩ := toPlain_reads hx ha
    exact ⟨plain, hplain⟩

/-- the sentence of an entry has no sign, and with its sign again it is the sentence that the entry was read off -/
theorem ReadOff.plain {s : Sentence} (h : ReadOff e s rule x)
    (hsigned : e.calculus = .signed → e.HasLexer ∧ ∃ a, e.calculus.Means s a) :
    e.calculus.toPlain e.lexer x.sentence = .ok x.sentence ∧ e.calculus.toNode e.lexer x.sentence = .ok s := by
  obtain ⟨c, lexer, level⟩ := e
  cases c with
  | unsigned =>
    obtain rfl : s = x.sentence := Except.ok.inj h.1
    exact ⟨rfl, rfl⟩
  | signed =>
    obtain ⟨hx, a, ha⟩ := hsigned rfl
    obtain ⟨plain, hplain, hread, hnode⟩ := toPlain_reads hx ha
    obtain rfl : plain = x.sentence := Except.ok.inj (hplain.symm.trans h.1)
    exact ⟨toPlain_plain _ hread, hnode⟩

/-- an entry for the rule is read off what stands at its position on its branch -/
def Stands (e : Setting) (t : ProofTree) (rule : String) (x : Pending) : Prop :=
  ∃ r ∈ strands t, r.leaf.branch = x.branch ∧ ∃ s, r.sentences[x.position]? = some s ∧ ReadOff e s rule x

theorem stands_unmarked : Stands e t.unmarked rule x ↔ Stands e t rule x := by
  simp only [Stands, strands_unmarked, List.mem_map, exists_exists_and_eq_and, Strand.sentences_unmark]
  rfl

theorem Stands.congr (h : Stands e t rule x) (ht : t'.unmarked = t.unmarked) : Stands e t' rule x := by
  rwa [← stands_unmarked, ht, stands_unmarked]

/-- what stands on a strand stands on one that goes on from it, under its name -/
theorem stands_of_longer {r r' : Strand} (hr' : r' ∈ strands t) (hbefore : r.path <+: r'.path) {s : Sentence}
    (hs : r.sentences[x.position]? = some s) (hread : ReadOff e s rule x) :
    Stands e t rule { x with branch := r'.leaf.branch } := by
  refine ⟨r', hr', rfl, s, ?_, hread⟩
  obtain ⟨more, hmore⟩ := hbefore
  rw [Strand.sentences, ← hmore, List.map_append, List.getElem?_append_left]
  · exact hs
  · exact (List.getElem?_eq_some_iff.1 hs).1

theorem Stands.grow (h : Stands e t rule x) (hg : Grows t t') : Stands e t' rule x := by
  obtain ⟨r, hr, hbranch, s, hs, hread⟩ := h
  obtain ⟨r', hr', hbefore, hbranch'⟩ := hg.exists_longer hr
  have := stands_of_longer hr' hbefore hs hread
  rwa [hbranch', hbranch] at this

theorem Stands.mem_branchNames (h : Stands e t rule x) : x.branch ∈ t.branchNames := by
  obtain ⟨r, hr, hbranch, -⟩ := h
  exact ProofTree.mem_branchNames.2 ⟨r, hr, hbranch⟩

/-- the sentence of a place stands where the place is, on the branch that it is named for -/
theorem stands_place (ht : t.Named) {q : Place} (hq : q ∈ t.places) (hread : ReadOff e q.data.sentence rule x) :
    Stands e t rule ⟨x.sentence, q.data.branch, q.depth⟩ := by
  obtain ⟨r, hr, hbefore⟩ := exists_strand_of_place hq
  have hpath : q.path = q.above.map (·.1) ++ [q.data] := q.path_eq
  obtain ⟨r', hr', ⟨more, hmore⟩, hbranch⟩ := ht.exists_strand hr (hpath ▸ hbefore)
  refine ⟨r', hr', hbranch, q.data.sentence, ?_, hread⟩
  rw [Strand.sentences, ← hmore, Place.depth]
  simp

/-- everything that waits is found in the tree -/
def Apt (e : Setting) (t : ProofTree) (a : Agenda) : Prop := ∀ rule, ∀ x ∈ a.waiting rule, Stands e t rule x

namespace Apt

theorem congr (h : Apt e t a) (ht : t'.unmarked = t.unmarked) : Apt e t' a := fun rule x hx => (h rule x hx).congr ht

theorem add (h : Apt e t a) (hx : Stands e t rule x) (ha : a.add rule x = .ok a') : Apt e t a' := by
  unfold Agenda.add at ha
  split at ha
  · cases ha
  · rename_i xs hxs
    obtain rfl := Except.ok.inj ha
    intro rule' y hy
    rw [Agenda.waiting_put] at hy
    split at hy
    · rename_i heq
      rw [heq]
      rcases List.mem_append.1 hy with hy | hy
      · exact h rule y (by rwa [Agenda.waiting, hxs])
      · rwa [List.mem_singleton.1 hy]
    · exact h rule' y hy

theorem dropLast (h : Apt e t a) (rule : String) : Apt e t (put rule (a.waiting rule).dropLast a) := by
  intro rule' y hy
  rw [Agenda.waiting_put] at hy
  split at hy
  · rename_i heq
    rw [heq]
    exact h rule y (List.mem_of_mem_dropLast hy)
  · exact h rule' y hy

theorem dropBranches (h : Apt e t a) (closed : List String) : Apt e t (a.dropBranches closed) := by
  intro rule y hy
  rw [Agenda.waiting_dropBranches] at hy
  exact h rule y (List.mem_filter.1 hy).1

theorem spread (h : Apt e t a) {target : String} {bs : List String}
    (hbs : ∀ rule, ∀ z ∈ a.waiting rule, z.branch = target → ∀ b ∈ bs, Stands e t rule { z with branch := b }) :
    Apt e t (a.spread target bs) := by
  intro rule y hy
  rw [Agenda.waiting_spread, List.mem_append, Agenda.mem_copies] at hy
  rcases hy with hy | ⟨z, hz, hbranch, b, hb, rfl⟩
  · exact h rule y hy
  · exact hbs rule z hz hbranch b hb

theorem foldlM {α : Type} {f : Agenda → α → Outcome Agenda} {l : List α}
    (hf : ∀ i ∈ l, ∀ {a a'}, Apt e t a → f a i = .ok a' → Apt e t a') (h : Apt e t a) (ha : l.foldlM f a = .ok a') :
    Apt e t a' := by
  induction l generalizing a with
  | nil => rwa [← Except.ok.inj ha]
  | cons i l ih =>
    rw [List.foldlM_cons] at ha
    obtain ⟨b, hb, ha⟩ := of_bind_eq_ok ha
    exact ih (fun j hj => hf j (List.mem_cons_of_mem _ hj)) (hf i List.mem_cons_self h hb) ha

end Apt

namespace Proof

variable {p : Proof}

/-- **What waits on the open branches** is found there. -/
theorem apt_agenda (h : p.agenda e = .ok a) : Apt e p.tree a := by
  refine Apt.foldlM (fun q hq a a' ha hstep => ?_) (fun rule x hx => by simp at hx) h
  have hleaf : q ∈ p.tree.leaves := (List.mem_filter.1 hq).1
  refine ha.foldlM (fun ⟨n, i⟩ hn a a' ha hadd => ?_) hstep
  dsimp only at hadd
  split at hadd
  · rwa [← Except.ok.inj hadd]
  obtain ⟨r, hrule, hadd⟩ := of_bind_eq_ok hadd
  cases r with
  | none => rwa [← Except.ok.inj hadd]
  | some rule =>
    obtain ⟨s, hs, hadd⟩ := of_bind_eq_ok hadd
    refine ha.add ⟨q.strand, ?_, rfl, n.sentence, ?_, hs, hrule⟩ hadd
    · rw [← strands_eq_leaves]
      exact List.mem_map_of_mem hleaf
    · rw [Strand.sentences, ← Place.path_eq, List.getElem?_map, (List.mk_mem_zipIdx_iff_getElem?.1 hn)]
      rfl

/-- **What was made and is put on the agenda** is found where it was made. -/
theorem apt_enlist (ht : t.Named) {new : List Place} (hnew : ∀ q ∈ new, q ∈ t.places) (ha : Apt e t a)
    (h : enlist e new a = .ok a') : Apt e t a' := by
  refine ha.foldlM (fun q hq a a' ha hadd => ?_) h
  split at hadd
  · rwa [← Except.ok.inj hadd]
  obtain ⟨r, hrule, hadd⟩ := of_bind_eq_ok hadd
  cases r with
  | none => rwa [← Except.ok.inj hadd]
  | some rule =>
    obtain ⟨s, hs, hadd⟩ := of_bind_eq_ok hadd
    exact ha.add (stands_place ht (hnew q hq) (x := ⟨s, q.data.branch, q.depth⟩) ⟨hs, hrule⟩) hadd

end Proof

end Stands

/-! ## What hangs below a leaf that was -/

namespace ProofTree

variable {t t' : ProofTree} {b : String} {news : List String} {top stop : Nat}

mutual
theorem size_unmarked (t : ProofTree) : t.unmarked.size = t.size := by
  match t with
  | node d ts => rw [unmarked, size, size, sizeAll_unmarked]

theorem sizeAll_unmarked (ts : List ProofTree) : sizeAll (unmarkedAll ts) = sizeAll ts := by
  match ts with
  | [] => rfl
  | t :: ts => rw [unmarkedAll, sizeAll, sizeAll, size_unmarked, sizeAll_unmarked]
end

theorem offset_unmark (fs : List Frame) : offset (fs.map Frame.unmark) = offset fs := by
  induction fs with
  | nil => rfl
  | cons f fs ih => rw [List.map_cons, offset, offset, ih, Frame.unmark, sizeAll_unmarked]

theorem unmarkedAll_eq_append {ts us vs : List ProofTree} (h : unmarkedAll ts = us ++ vs) :
    ∃ us' vs', ts = us' ++ vs' ∧ unmarkedAll us' = us ∧ unmarkedAll vs' = vs := by
  induction us generalizing ts with
  | nil => exact ⟨[], ts, rfl, rfl, h⟩
  | cons u us ih =>
    cases ts with
    | nil => cases h
    | cons t ts =>
      rw [unmarkedAll, List.cons_append, List.cons.injEq] at h
      obtain ⟨us', vs', rfl, rfl, hvs⟩ := ih h.2
      exact ⟨t :: us', vs', rfl, by rw [unmarkedAll, h.1], hvs⟩

theorem exists_plug_of_unmarked {fs : List Frame} {u : ProofTree} (h : t.unmarked = plug fs u) :
    ∃ fs' u', t = plug fs' u' ∧ fs'.map Frame.unmark = fs ∧ u'.unmarked = u := by
  induction fs generalizing t with
  | nil => exact ⟨[], t, rfl, rfl, h⟩
  | cons f fs ih =>
    cases t with
    | node d ts =>
      rw [unmarked, plug, node.injEq] at h
      obtain ⟨before, rest, rfl, hbefore, hrest⟩ := unmarkedAll_eq_append h.2
      cases rest with
      | nil => cases hrest
      | cons v after =>
        rw [unmarkedAll, List.cons.injEq] at hrest
        obtain ⟨fs', u', rfl, rfl, hu⟩ := ih hrest.1
        refine ⟨⟨d, before, after⟩ :: fs', u', rfl, ?_, hu⟩
        rw [List.map_cons, Frame.unmark, h.1, hbefore, hrest.2]

/-- what hangs below a node of the branch has the positions from `top` to `stop`, and its nodes have new names -/
def Sprouted (b : String) (news : List String) (top stop : Nat) (t : ProofTree) : Prop :=
  ∃ fs d ts, t = plug fs (node d ts) ∧ top = offset fs ∧ stop = offset fs + size (node d ts) ∧ d.branch = b ∧
    ∀ s ∈ strandsAll ts, ∀ n ∈ s.path, n.branch ∈ news

namespace Sprouted

theorem congr (h : Sprouted b news top stop t) (ht : t'.unmarked = t.unmarked) : Sprouted b news top stop t' := by
  obtain ⟨fs, d, ts, rfl, rfl, rfl, hbranch, hnews⟩ := h
  rw [unmarked_plug, unmarked] at ht
  obtain ⟨fs', ⟨d', ts'⟩, rfl, hfs, hu⟩ := exists_plug_of_unmarked ht
  rw [unmarked, node.injEq] at hu
  have hoffset : offset fs' = offset fs := by rw [← offset_unmark, hfs, offset_unmark]
  refine ⟨fs', d', ts', rfl, hoffset.symm, ?_, ?_, fun s hs n hn => ?_⟩
  · rw [hoffset, size, size, ← sizeAll_unmarked ts', hu.2, sizeAll_unmarked]
  · have hd : d'.unmark.branch = d.unmark.branch := congrArg Node.branch hu.1
    exact hd.trans hbranch
  · -- without marks the strands are the same
    have hs' : s.unmark ∈ strandsAll (unmarkedAll ts) := by
      rw [← hu.2, strandsAll_unmarked]
      exact List.mem_map_of_mem hs
    rw [strandsAll_unmarked] at hs'
    obtain ⟨r, hr, heq⟩ := List.mem_map.1 hs'
    have hn' : n.unmark ∈ r.path.map Node.unmark := by
      rw [← Strand.path_unmark, heq, Strand.path_unmark]
      exact List.mem_map_of_mem hn
    obtain ⟨m, hm, hmn⟩ := List.mem_map.1 hn'
    have hbranch : m.unmark.branch = n.unmark.branch := congrArg Node.branch hmn
    exact hbranch ▸ hnews r hr m hm

/-- the nodes at these positions have new names, and the nodes right above them too, or the name of the branch -/
theorem place (h : Sprouted b news top stop t) {q : Place} (hq : q ∈ (t.places.take stop).drop (top + 1)) :
    q.data.branch ∈ news ∧ ∀ m ∈ q.above.getLast?, m.1.branch ∈ b :: news := by
  obtain ⟨fs, d, ts, rfl, rfl, rfl, rfl, hnews⟩ := h
  have hplaces := Proof.placesBetween_plug (p := { statement := [], tree := plug fs (node d ts), branch := "" }) rfl
  rw [Proof.placesBetween] at hplaces
  rw [hplaces] at hq
  obtain ⟨l, u, r, gs, rfl, rfl, -, habove⟩ := exists_plug_all hq
  -- some strand goes through the place
  obtain ⟨v, hv⟩ := List.exists_mem_of_ne_nil _ (strands_ne_nil q.tree)
  have hmem : v.below (gs.map (·.data)) ∈ strandsAll (l ++ plug gs q.tree :: r) := by
    rw [strandsAll_append, strandsAll]
    exact List.mem_append_right _ (List.mem_append_left _ (below_mem_strands gs hv))
  have hpath := Strand.path_below (gs.map (·.data)) v
  refine ⟨hnews _ hmem _ ?_, fun m hm => ?_⟩
  · rw [hpath]
    exact List.mem_append_right _ ((starts_with_data hv).subset List.mem_cons_self)
  · rw [habove, List.getLast?_append, Option.mem_def, Option.or_eq_some_iff] at hm
    rcases hm with hm | ⟨-, hm⟩
    · refine List.mem_cons_of_mem _ (hnews _ hmem _ ?_)
      rw [hpath, ← trailFrom_nodes]
      exact List.mem_append_left _ (List.mem_map_of_mem (List.mem_of_getLast? hm))
    · rw [List.getLast?_concat, Option.some.injEq] at hm
      rw [← hm]
      exact List.mem_cons_self

end Sprouted

end ProofTree

/-! ## The solver -/

namespace Proof

variable {e : Setting} {p : Proof} {t t' : ProofTree} {J : Proof → Prop} {base : List UsedRule}
    {rule b : String} {x : Pending} {a : Agenda} {top stop : Nat}

/-- a tree after an entry of the branch was taken apart: what waits is found in it, what waits on the branch also on
those that go on from it, and nothing waits on a branch that is new -/
def Grown (e : Setting) (b : String) (a : Agenda) (top stop : Nat) (t : ProofTree) : Prop :=
  Apt e t a ∧ ∃ news, Sprouted b news top stop t ∧ ∀ rule, ∀ z ∈ a.waiting rule, (z.branch ∈ news → z.branch = b) ∧
    (z.branch = b → ∀ n ∈ news, Stands e t rule { z with branch := n })

theorem Grown.congr (h : Grown e b a top stop t) (ht : t'.unmarked = t.unmarked) : Grown e b a top stop t' := by
  obtain ⟨hapt, news, hsprouted, hwaiting⟩ := h
  refine ⟨hapt.congr ht, news, hsprouted.congr ht, fun rule z hz => ⟨(hwaiting rule z hz).1, fun hb n hn => ?_⟩⟩
  exact ((hwaiting rule z hz).2 hb n hn).congr ht

/-- **A branch that parts**: what waits on it is put on the branches that go on from it, and is found there. -/
theorem Grown.spread (h : Grown e b a top stop p.tree) :
    let new := p.placesBetween (top + 1) stop
    let branches := (new.map (·.data.branch)).eraseDups
    let target := ((new.getLast?.bind fun q => q.above.getLast?).map (·.1.branch)).getD b
    Apt e p.tree (if 1 < branches.length then a.spread target (branches.filter (· != target)) else a) := by
  intro new branches target
  obtain ⟨hapt, news, hsprouted, hwaiting⟩ := h
  have htarget : target ∈ b :: news := by
    cases hlast : new.getLast?.bind fun q => q.above.getLast? with
    | none => simp [target, hlast]
    | some m =>
      obtain ⟨q, hq, hm⟩ := Option.bind_eq_some_iff.1 hlast
      simpa [target, hlast] using (hsprouted.place (List.mem_of_getLast? hq)).2 m hm
  split
  · refine hapt.spread fun rule z hz hzb n hn => ?_
    have hzb' : z.branch = b := by
      rw [← hzb] at htarget
      exact (List.mem_cons.1 htarget).elim id (hwaiting rule z hz).1
    have hn' : n ∈ new.map (·.data.branch) := List.mem_eraseDups.1 (List.mem_filter.1 hn).1
    obtain ⟨q, hq, rfl⟩ := List.mem_map.1 hn'
    exact (hwaiting rule z hz).2 hzb' _ (hsprouted.place hq).1
  · exact hapt

/-- what stands on a branch stands on all that go on from it -/
theorem stands_below (h : Stands e p.tree rule x) (hnames : ((strands p.tree).map (·.leaf.branch)).Nodup) {q : Place}
    {fs : List Frame}
    {d : Node} (hfound : p.Found x.branch q fs d) {ts : List ProofTree} {u : Strand} (hu : u ∈ strandsAll ts) :
    Stands e (plug fs (node d ts)) rule { x with branch := u.leaf.branch } := by
  obtain ⟨r, hr, hbranch, y, hy, hread⟩ := h
  have hmem : ⟨fs.map (·.data), d⟩ ∈ strands p.tree := by
    rw [hfound.tree]
    exact strand_mem_plug fs d
  obtain rfl := strand_unique hnames hr hmem (by rw [hbranch, hfound.branch])
  have hbefore : Strand.path ⟨fs.map (·.data), d⟩ <+: (u.below (fs.map (·.data) ++ [d])).path := by
    rw [Strand.path_below]
    exact List.prefix_append _ _
  have hstands := stands_of_longer (below_mem_grown fs d hu) hbefore hy hread
  rwa [Strand.below_leaf] at hstands

theorem grown_growth {q : Place} {fs : List Frame} {d : Node} {g : Growth}
    (hnames : ((strands p.tree).map (·.leaf.branch)).Nodup)
    (hfound : p.Found b q fs d) (hg : ∀ b ∈ g, b ≠ []) (s : Option Sentence) (ha : Apt e p.tree a) :
    Grown e b a (offset fs) (offset fs + size (node d (growth e p d g s))) (plug fs (node d (growth e p d g s))) := by
  rcases offshoot_growth (e := e) hfound.tree hg s with hnil | hoff
  · rw [hnil, ← hfound.tree]
    refine ⟨ha, [], ⟨fs, d, [], hfound.tree, rfl, rfl, hfound.branch, ?_⟩, ?_⟩ <;> simp [strandsAll]
  generalize hts : growth e p d g s = ts at hoff ⊢
  have hgrows : Grows p.tree.unmarked (plug fs (node d ts)).unmarked := by
    rcases grows_growth (e := e) hfound.tree hg s with hnil | hgrows
    · exact absurd (hts.symm.trans hnil) hoff.ne_nil
    · rwa [hts] at hgrows
  have hapt : Apt e (plug fs (node d ts)) a := by
    intro rule z hz
    exact stands_unmarked.1 ((stands_unmarked.2 (ha rule z hz)).grow hgrows)
  refine ⟨hapt, (strandsAll ts).map (·.leaf.branch), ⟨fs, d, ts, rfl, rfl, rfl, hfound.branch, ?_⟩, ?_⟩
  · intro u hu n hn
    rw [hoff.named u hu n hn]
    exact List.mem_map_of_mem hu
  intro rule z hz
  constructor
  · -- the names of the other branches are new
    intro hmem
    obtain ⟨u, hu, hub⟩ := List.mem_map.1 hmem
    rcases hoff.fresh u hu with heq | ⟨hfresh, -⟩
    · rw [← hub, heq]
      exact hfound.branch
    · rw [hub, branchNames_unmarked] at hfresh
      exact absurd (ha rule z hz).mem_branchNames hfresh
  · rintro rfl n hn
    obtain ⟨u, hu, rfl⟩ := List.mem_map.1 hn
    exact stands_below (ha rule z hz) hnames hfound hu

/-- what is kept when a branch is closed, and when an entry that is found in the tree is taken apart -/
structure Attends (e : Setting) (J : Proof → Prop) : Prop where
  names : ∀ {p}, J p → ((strands p.tree).map (·.leaf.branch)).Nodup
  named : ∀ {p}, J p → p.tree.Named
  take : ∀ {p rule x}, J p → Stands e p.tree rule x → J (exec (takeApart e rule x) p).2
  close : ∀ b, Keeps J (dealClosure e b)

theorem endures_used (e : Setting) (start : List UsedRule) : Endures e fun p => start <+: p.used where
  lost _ hp _ _ := hp
  move _ hp _ _ _ _ _ _ := hp.trans (List.prefix_append _ _)
  close hp _ _ := hp

namespace Attends

theorem since (h : Attends e J) (start : List UsedRule) : Attends e fun p => J p ∧ start <+: p.used where
  names hp := h.names hp.1
  named hp := h.named hp.1
  take {p rule x} hp hx := ⟨h.take hp.1 hx, (endures_used e start).takeApart rule x p hp.2⟩
  close b := (h.close b).and ((endures_used e start).dealClosure b)

theorem takeApart (h : Attends e J) : Leads J (fun p => Apt e p.tree a ∧ Stands e p.tree rule x) (takeApart e rule x)
    fun r p => Grown e x.branch a r.1 r.2 p.tree := by
  rintro p hp ⟨ha, hx⟩
  refine ⟨h.take hp hx, fun r p' hrun => ?_⟩
  rcases takeApart_cases e rule x p with ⟨f, hcase⟩ | ⟨m, bs, q, fs, d, -, hstrict, hfound, hcases⟩
  · rw [hcase] at hrun
    cases hrun
  rcases hcases with ⟨f, -, hcase⟩ | ⟨-, s, -, ⟨f, -, hcase⟩ | ⟨token, -, hcase⟩⟩ <;> rw [hcase] at hrun <;> cases hrun
  exact grown_growth (h.names hp) hfound (full_of_strict hstrict).2 (some s) ha

theorem dealClosure (h : Attends e J) (c : String) : Leads J (fun p => Grown e b a top stop p.tree) (dealClosure e c)
    fun _ p => Grown e b a top stop p.tree := by
  intro p hp hgrown
  refine ⟨h.close c p hp, fun r p' hrun => hgrown.congr ?_⟩
  have := unmarked_dealClosure e c p
  rwa [hrun] at this

/-- **A step**: what waits after it is found in the tree. -/
theorem advance (h : Attends e J) (closed : List String) : Leads J (fun p => Apt e p.tree a ∧ Stands e p.tree rule x)
    (advance e rule x closed a) fun r p => Apt e p.tree r.2 := by
  refine h.takeApart.bind fun ⟨top, stop⟩ => .get_bind fun p => ?_
  refine .bind (.weaken (.foldlM (P := fun _ p => Grown e x.branch a top stop p.tree) (fun closed q _ => ?_) closed)
    fun _ => And.left) fun closed => .get_bind fun p => ?_
  · refine (h.dealClosure q.data.branch).bind fun r => ?_
    cases r <;> exact .pure fun _ _ hp => hp
  · refine .bind (Q := fun a p => Apt e p.tree a) (.lift fun a' s hs hgrown ha' => ?_) fun a => .pure fun _ _ hp => hp
    obtain ⟨hgrown, rfl⟩ := hgrown
    exact apt_enlist (h.named hs) (fun q hq => List.mem_of_mem_take (List.mem_of_mem_drop hq)) hgrown.spread ha'

theorem exhaust (h : Attends e J) (rule : String) (fuel : Nat) (closed : List String) (a : Agenda) :
    Leads J (fun p => Apt e p.tree a) (exhaust e rule fuel closed a) fun a p => Apt e p.tree a := by
  induction fuel generalizing closed a with
  | zero => exact .pure fun _ _ ha => ha.dropBranches closed
  | succ fuel ih =>
    rw [Proof.exhaust]
    split
    · exact .pure fun _ _ ha => ha.dropBranches closed
    · rename_i x hx
      refine .ite (.weaken (ih _ _) fun _ ha => ha.dropLast rule)
        (.bind (.weaken (h.advance closed) fun _ ha => ?_) fun r => ih _ _)
      exact ⟨ha.dropLast rule, ha rule x (List.mem_of_getLast? hx)⟩

theorem saturate (h : Attends e J) (bound : Nat) (rules : List String) (fuel : Nat) (a : Agenda) :
    Leads J (fun p => Apt e p.tree a) (saturate e bound rules fuel a) fun r p => Apt e p.tree r.2 := by
  induction fuel generalizing a with
  | zero => exact .pure fun _ _ ha => ha
  | succ fuel ih =>
    rw [Proof.saturate]
    refine .ite (.pure fun _ _ ha => ha)
      (.bind (.foldlM (P := fun a (p : Proof) => Apt e p.tree a) (fun a r _ => ?_) a) fun a => ?_)
    · exact .ite (.pure fun _ _ ha => ha) (h.exhaust r bound [] a)
    · exact .get_bind fun p => .weaken (.ite (.pure fun _ _ ha => ha) (ih a)) fun _ => And.left

/-- **Rules that are tried**, also if what they did is taken back. -/
theorem tryRules (h : Attends e J) (hback : Retreats base J) (bound : Nat) (tried rest : List String) (a : Agenda) :
    Leads J (fun p => Apt e p.tree a) (tryRules e bound tried rest a) fun _ _ => True := by
  induction rest generalizing J base tried a with
  | nil => exact .pure fun _ _ _ => trivial
  | cons rule rest ih =>
    intro p hp ha
    refine ⟨?_, fun _ _ _ => trivial⟩
    rw [Proof.tryRules, exec_bind, exec_get]
    -- from here on, what was used up to now stays
    have hsince := h.since p.used
    have hstays := hback.since (hback.stays hp)
    refine ((Leads.bind (hsince.saturate bound _ bound a) fun saturated => ?_ : Leads _ _ _ fun _ _ => True) p
      ⟨hp, List.prefix_rfl⟩ ha).1.1
    refine .ite (.of_keeps (.pure _)) ((ih hsince hstays (tried ++ [rule]) saturated.2).bind fun done =>
      .of_keeps (.ite (.pure _) ?_))
    refine Keeps.bind (.change fun q hq => ?_) fun _ => .pure _
    obtain ⟨more, hmore⟩ := hq.2
    exact hstays.back hq List.prefix_rfl hmore

/-- **The solver** keeps what its steps keep. -/
theorem solve (h : Attends e J) (hback : Retreats base J) : Keeps J (solve e) := by
  intro p hp
  obtain ⟨p', hp', ⟨f, hrun⟩ | ⟨a, ha, hrun⟩⟩ := exec_solve_eq h.close hp <;> rw [hrun]
  · exact hp'
  · exact (h.tryRules hback _ _ _ a p' hp' (apt_agenda ha)).1

end Attends

end Proof

end TableauTutor

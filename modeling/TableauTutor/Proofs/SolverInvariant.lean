import TableauTutor.Proofs.Effort
import TableauTutor.Proofs.SolverStep

/-!
What a run of the solver keeps, in two parts. `Tended` is about the tree: its leaves are closed exactly as the closure
check has it, what is used up on a branch has been taken apart there, and a valuation that makes the root true makes all
nodes of some branch true. `Scheduled` is about the agenda: its entries stand for nodes of open branches, and all that
is left to do on open branches has an entry.

- `advance_run`: one step keeps the agenda in order and lowers the potential, or there is no name for a branch.
- `upholds_tended`: one step keeps the tree tended, or no name for a branch is free.
-/

namespace TableauTutor

namespace Calculus

/-- what a sentence says was taken apart among the given sentences: one of the branches
that a rule makes of it is there -/
def Settled (c : Calculus) (ss : List Sentence) (t : Sentence) : Prop :=
  ∃ a, c.Means t a ∧ ∃ rule m ps b, (rule, m) ∈ ruleMethods ∧ m.expand a = some ps ∧ b ∈ ps ∧
    ∀ q ∈ b, ∃ u ∈ ss, c.Means u q

theorem Settled.mono {c : Calculus} {ss ts : List Sentence} {t : Sentence} (h : c.Settled ss t) (hsub : ss ⊆ ts) :
    c.Settled ts t := by
  obtain ⟨a, ha, rule, m, ps, b, hm, hps, hb, hall⟩ := h
  refine ⟨a, ha, rule, m, ps, b, hm, hps, hb, fun q hq => ?_⟩
  obtain ⟨u, hu, huq⟩ := hall q hq
  exact ⟨u, hsub hu, huq⟩

end Calculus

namespace ProofTree

open Calculus

/-- a branch as the solver leaves it -/
structure Strand.Tended (c : Calculus) (root : Sentence) (s : Strand) : Prop where
  root : root ∈ s.sentences
  settled : ∀ t, s.leaf.history.contains t = true → c.Settled s.sentences t
  mark : s.leaf.closed = c.verdict s.sentences s.leaf.history

/-- a tree whose leaves are closed exactly as the closure check has it -/
structure Watched (c : Calculus) (t : ProofTree) : Prop where
  sane : t.Sane c
  mark : ∀ s ∈ strands t, s.leaf.closed = c.verdict s.sentences s.leaf.history

/-- a tree as the solver leaves it -/
structure Tended (c : Calculus) (root : Sentence) (t : ProofTree) : Prop where
  sane : t.Sane c
  strand : ∀ s ∈ strands t, s.Tended c root
  covers : ∀ v, c.Holds v root → ∃ s ∈ strands t, ∀ u ∈ s.sentences, c.Holds v u

theorem Tended.watched {c : Calculus} {root : Sentence} {t : ProofTree} (h : t.Tended c root) : t.Watched c :=
  ⟨h.sane, fun s hs => (h.strand s hs).mark⟩

end ProofTree

namespace Proof

open ProofTree Calculus

/-- an agenda that fits a proof; `closed` are branches that were closed without being taken off it -/
structure Scheduled (e : Setting) (p : Proof) (closed : List String) (ag : Agenda) : Prop where
  keyed : ag.Keyed
  valid : ∀ rule, ∀ x ∈ ag.waiting rule, Valid e p rule x
  isOpen : ∀ rule, ∀ x ∈ ag.waiting rule, x.branch ∉ closed →
    ∀ s ∈ strands p.tree, s.leaf.branch = x.branch → s.leaf.closed = none
  isClosed : ∀ b ∈ closed, ∃ s ∈ strands p.tree, s.leaf.branch = b ∧ s.leaf.closed ≠ none
  complete : ∀ s ∈ strands p.tree, s.leaf.closed = none → ∀ n ∈ s.path, s.leaf.history.contains n.sentence = false →
    ∀ a rule, e.calculus.Means n.sentence a → a.rule? = some rule →
      ∃ x ∈ ag.waiting rule, x.branch = s.leaf.branch ∧ e.calculus.toPlain e.lexer n.sentence = .ok x.sentence

/-! ## The branches after a step -/

section Step

variable {e : Setting} {p : Proof} {rule : String} {x : Pending} {fs : List Frame} {d n : Node}
    {a : Proposition} {m : Method} {ps : List (List Proposition)} {bs : List (List Sentence)} {names : List String}

/-- a branch that goes on below the leaf `d`, with the given name and sentences -/
structure GoesOn (e : Setting) (p : Proof) (above : List Node) (d n : Node) (name : String) (b : List Sentence)
    (s : Strand) : Prop where
  path : s.path = above ++ closeLine e.calculus above (b.map fun y => (p.newNode d name y).use n.sentence)
  branch : s.leaf.branch = name
  history : s.leaf.history = d.history.insert n.sentence
  sentences : s.sentences = above.map (·.sentence) ++ b
  mark : s.leaf.closed = e.calculus.verdict s.sentences s.leaf.history
  line : s.leaf.closed = lineVerdict e.calculus above (b.map fun y => (p.newNode d name y).use n.sentence)

theorem goesOn_of_path {above : List Node} {name : String} {b : List Sentence} (hb : b ≠ []) {s : Strand}
    (h : s.path = above ++ closeLine e.calculus above (b.map fun y => (p.newNode d name y).use n.sentence)) :
    GoesOn e p above d n name b s := by
  have hsentences : s.sentences = above.map (·.sentence) ++ b := by
    rw [Strand.sentences, h, List.map_append, map_closeLine (by simp), List.map_map]
    congr 1
    exact List.map_id b
  obtain ⟨ys, y, rfl⟩ : ∃ ys y, b = ys ++ [y] := ⟨_, _, (List.dropLast_concat_getLast hb).symm⟩
  have hlast := h
  rw [List.map_append, List.map_singleton, closeLine_append, ← List.append_assoc, Strand.path] at hlast
  have hleaf := List.singleton_inj.1 (List.append_inj' hlast rfl).2
  have hhistory : s.leaf.history = d.history.insert n.sentence := by
    rw [hleaf, Node.close_history]
    rfl
  have hclosed : s.leaf.closed = lineVerdict e.calculus above ((ys ++ [y]).map fun y =>
      (p.newNode d name y).use n.sentence) := by
    rw [hleaf, Node.close_closed _ _ rfl, List.map_append, List.map_singleton]
  refine ⟨h, by rw [hleaf, Node.close_branch]; rfl, hhistory, hsentences, ?_, hclosed⟩
  rw [hclosed, hsentences, hhistory, lineVerdict]
  simp [Function.comp_def, newNode, Node.use]

/-- **The branches after a step**: the old ones, but for the one that was worked on, which goes on in the new ones. -/
theorem strands_advance (h : Taking e p rule x fs d n a m ps bs) (hlen : names.length = bs.length) :
    let above := fs.map (·.data) ++ [d]
    ∃ left right news, strands p.tree = left ++ ⟨fs.map (·.data), d⟩ :: right ∧
      strands (plug fs (node d (lines ((p.newLines d n names bs).map (closeLine e.calculus above))))) =
        left ++ news ++ right ∧
      (∀ s ∈ news, ∃ nb ∈ names.zip bs, GoesOn e p above d n nb.1 nb.2 s) ∧
      ∀ nb ∈ names.zip bs, ∃ s ∈ news, GoesOn e p above d n nb.1 nb.2 s := by
  intro above
  let f (nb : String × List Sentence) : List Node :=
    closeLine e.calculus above (nb.2.map fun y => (p.newNode d nb.1 y).use n.sentence)
  have hnss : (p.newLines d n names bs).map (closeLine e.calculus above) = (names.zip bs).map f := by
    rw [newLines, List.map_map]
    rfl
  have hb : ∀ nb ∈ names.zip bs, nb.2 ≠ [] := fun nb hnb => h.ne_nil nb.2 (List.of_mem_zip hnb).2
  have hf : ∀ nb ∈ names.zip bs, f nb ≠ [] := by
    intro nb hnb heq
    have := congrArg (List.map (·.sentence)) heq
    rw [map_closeLine (by simp)] at this
    exact hb nb hnb (by simpa using this)
  have hpaths : (strandsAll (lines ((names.zip bs).map f))).map Strand.path = (names.zip bs).map f := by
    rw [paths_lines, List.filter_eq_self]
    intro ns hns
    obtain ⟨nb, hnb, rfl⟩ := List.mem_map.1 hns
    simpa using hf nb hnb
  have hne : lines ((names.zip bs).map f) ≠ [] := by
    intro heq
    have hz : names.zip bs ≠ [] := by
      rcases h.shape with ⟨b, -, rfl⟩ | ⟨l, r, rfl⟩ <;>
        (cases names <;> simp at hlen ⊢)
    rw [heq, strandsAll, List.map_nil, eq_comm, List.map_eq_nil_iff] at hpaths
    exact hz hpaths
  obtain ⟨left, right, hold, hnew⟩ := strands_grown fs d hne
  rw [hnss]
  refine ⟨left, right, _, h.tree ▸ hold, hnew, fun s hs => ?_, fun nb hnb => ?_⟩
  · obtain ⟨u, hu, rfl⟩ := List.mem_map.1 hs
    have := List.mem_map_of_mem (f := Strand.path) hu
    rw [hpaths] at this
    obtain ⟨nb, hnb, heq⟩ := List.mem_map.1 this
    exact ⟨nb, hnb, goesOn_of_path (hb nb hnb) (by rw [Strand.path_below, ← heq])⟩
  · have := List.mem_map_of_mem (f := f) hnb
    rw [← hpaths] at this
    obtain ⟨u, hu, heq⟩ := List.mem_map.1 this
    exact ⟨_, List.mem_map_of_mem hu, goesOn_of_path (hb nb hnb) (by rw [Strand.path_below, heq])⟩

/-! ## The tree after a step -/

theorem contains_insert {h : History} {s t : Sentence} :
    (h.insert s).contains t = true ↔ h.contains t = true ∨ t = s := by
  unfold History.insert
  split
  · rename_i hs
    constructor
    · exact .inl
    · rintro (ht | rfl)
      · exact ht
      · exact hs
  · simp [History.contains]

theorem exists_name (hlen : names.length = bs.length) {b : List Sentence} (hb : b ∈ bs) :
    ∃ name, (name, b) ∈ names.zip bs := by
  have hmap : (names.zip bs).map Prod.snd = bs := List.map_snd_zip hlen.ge
  rw [← hmap] at hb
  obtain ⟨⟨name, b'⟩, hmem, rfl⟩ := List.mem_map.1 hb
  exact ⟨name, hmem⟩

/-- what was used on a branch is taken apart on the branches it goes on in -/
theorem GoesOn.settled {above : List Node} {name : String} {b : List Sentence} {s : Strand}
    (hgo : GoesOn e p above d n name b s) (h : Taking e p rule x fs d n a m ps bs) (hb : b ∈ bs) :
    e.calculus.Settled s.sentences n.sentence := by
  obtain ⟨qs, hqs, hmean⟩ := exists_of_forall₂ h.branches hb
  refine ⟨a, h.means, rule, m, ps, qs, h.method, h.expand, hqs, fun q hq => ?_⟩
  obtain ⟨u, hu, huq⟩ := exists_of_forall₂ hmean.flip hq
  exact ⟨u, by rw [hgo.sentences]; exact List.mem_append_right _ hu, huq⟩

/-- what is known of a proof after a step, besides what was taken apart: the branches before and after it -/
structure Stepped (e : Setting) (p p' : Proof) (x : Pending) (fs : List Frame) (d n : Node) (bs : List (List Sentence))
    (more : List String) (left right news : List Strand) : Prop where
  sane : p'.tree.Sane e.calculus
  length : (x.branch :: more).length = bs.length
  nodup : (x.branch :: more).Nodup
  fresh : ∀ b ∈ more, ∀ s ∈ strands p.tree, s.leaf.branch ≠ b
  old : strands p.tree = left ++ ⟨fs.map (·.data), d⟩ :: right
  new : strands p'.tree = left ++ news ++ right
  goesOn : ∀ s ∈ news, ∃ nb ∈ (x.branch :: more).zip bs, GoesOn e p (fs.map (·.data) ++ [d]) d n nb.1 nb.2 s
  exists_goesOn : ∀ nb ∈ (x.branch :: more).zip bs, ∃ s ∈ news, GoesOn e p (fs.map (·.data) ++ [d]) d n nb.1 nb.2 s

/-- **A step keeps the tree tended.** -/
theorem Stepped.tended {p' : Proof} {r : Sentence} {more : List String} {left right news : List Strand}
    (hp : p.tree.Tended e.calculus r) (h : Taking e p rule x fs d n a m ps bs)
    (hstep : Stepped e p p' x fs d n bs more left right news) : p'.tree.Tended e.calculus r := by
  have hold := hstep.old
  have hnew := hstep.new
  have hleaf := hp.strand ⟨fs.map (·.data), d⟩ (by simp [hold])
  refine ⟨hstep.sane, fun s hs => ?_, fun v hv => ?_⟩
  · simp only [hnew, List.mem_append] at hs
    rcases hs with (hs | hs) | hs
    · exact hp.strand s (by simp [hold, hs])
    · obtain ⟨nb, hnb, hgo⟩ := hstep.goesOn s hs
      have hsub : Strand.sentences ⟨fs.map (·.data), d⟩ ⊆ s.sentences := by
        rw [hgo.sentences]
        exact List.subset_append_left _ _
      refine ⟨hsub hleaf.root, fun u hu => ?_, hgo.mark⟩
      rw [hgo.history, contains_insert] at hu
      rcases hu with hu | rfl
      · exact (hleaf.settled u hu).mono hsub
      · exact hgo.settled h (List.of_mem_zip hnb).2
    · exact hp.strand s (by simp [hold, hs])
  · obtain ⟨s, hs, hall⟩ := hp.covers v hv
    simp only [hold, List.mem_append, List.mem_cons] at hs
    rcases hs with hs | rfl | hs
    · exact ⟨s, by simp [hnew, hs], hall⟩
    · -- the node that was taken apart is true, so one of the new branches is
      have hn : e.calculus.Holds v n.sentence :=
        hall _ (List.mem_map_of_mem (List.mem_of_getElem? h.node))
      rw [h.means.holds_iff, eval_expand h.method h.expand, ← holds_branches h.branches] at hn
      obtain ⟨b, hb, htrue⟩ := hn
      obtain ⟨name, hnb⟩ := exists_name hstep.length hb
      obtain ⟨s, hs, hgo⟩ := hstep.exists_goesOn _ hnb
      refine ⟨s, by simp [hnew, hs], fun u hu => ?_⟩
      rw [hgo.sentences, List.mem_append] at hu
      rcases hu with hu | hu
      · exact hall u hu
      · exact htrue u hu
    · exact ⟨s, by simp [hnew, hs], hall⟩

/-- **A step keeps the marks right.** -/
theorem Stepped.watched {p' : Proof} {more : List String} {left right news : List Strand}
    (hp : p.tree.Watched e.calculus)
    (hstep : Stepped e p p' x fs d n bs more left right news) : p'.tree.Watched e.calculus := by
  refine ⟨hstep.sane, fun s hs => ?_⟩
  simp only [hstep.new, List.mem_append] at hs
  rcases hs with (hs | hs) | hs
  · exact hp.mark s (by simp [hstep.old, hs])
  · obtain ⟨nb, -, hgo⟩ := hstep.goesOn s hs
    exact hgo.mark
  · exact hp.mark s (by simp [hstep.old, hs])

/-! ## The agenda after a step -/

theorem Valid.extend {p' : Proof} {rule : String} {y : Pending} (hn : ((strands p.tree).map (·.leaf.branch)).Nodup)
    (h : Valid e p rule y) {s s' : Strand} (hs : s ∈ strands p.tree) (hb : s.leaf.branch = y.branch)
    (hs' : s' ∈ strands p'.tree) (hpre : s.path <+: s'.path) : Valid e p' rule { y with branch := s'.leaf.branch } := by
  obtain ⟨u, hu, hub, k, a, hk, hplain, hmeans, hrule⟩ := h
  obtain rfl := strand_unique hn hu hs (hub.trans hb.symm)
  refine ⟨s', hs', rfl, k, a, ?_, hplain, hmeans, hrule⟩
  obtain ⟨rest, hrest⟩ := hpre
  rw [← hrest, List.getElem?_append_left (List.getElem?_eq_some_iff.1 hk).1, hk]

/-- the agenda without the last entry for a rule -/
theorem mem_waiting_dropLast {ag : Agenda} (hlast : (ag.waiting rule).getLast? = some x) {rule' : String}
    {y : Pending} : y ∈ ag.waiting rule' ↔
      y ∈ Agenda.waiting (put rule (ag.waiting rule).dropLast ag) rule' ∨ rule' = rule ∧ y = x := by
  rw [Agenda.waiting_put]
  by_cases h : rule' = rule
  · subst h
    conv_lhs => rw [← List.dropLast_append_getLast? x hlast]
    simp
  · simp [h]

/-- what waits for a rule after a step: what waited, what waited on the branch on its
other branches too, and what is new -/
theorem mem_waiting_advance {ag : Agenda} {target : String} {more : List String} {ys : List (String × Pending)}
    {rule' : String} {y : Pending} :
    y ∈ ((ag.spread target more).enter ys).waiting rule' ↔ y ∈ ag.waiting rule' ∨
      (∃ z ∈ ag.waiting rule', z.branch = target ∧ ∃ b ∈ more, y = { z with branch := b }) ∨ (rule', y) ∈ ys := by
  rw [Agenda.waiting_enter, Agenda.waiting_spread, List.mem_append, List.mem_append, Agenda.mem_copies, or_assoc]
  simp

/-- the entries of a branch that goes on are those of its new nodes -/
theorem GoesOn.mem_lineEntries {above : List Node} {name : String} {b : List Sentence} {s : Strand}
    (hgo : GoesOn e p above d n name b s) {y : String × Pending} :
    y ∈ lineEntries e above.length (closeLine e.calculus above (b.map fun y => (p.newNode d name y).use n.sentence)) ↔
      ∃ i k, above.length ≤ i ∧ s.path[i]? = some k ∧ k.closed = none ∧ entryFor e k.sentence name i = some y := by
  generalize hns : closeLine e.calculus above (b.map fun y => (p.newNode d name y).use n.sentence) = ns
  have hname : ∀ k ∈ ns, k.branch = name := by
    intro k hk
    have := List.mem_map_of_mem (f := fun k => k.branch) hk
    rw [← hns, map_closeLine (by simp), List.map_map] at this
    obtain ⟨-, -, rfl⟩ := List.mem_map.1 this
    rfl
  simp only [lineEntries, List.mem_flatMap, Prod.exists, List.mk_mem_zipIdx_iff_le_and_getElem?_sub, hgo.path, hns]
  constructor
  · rintro ⟨k, i, ⟨hi, hk⟩, hy⟩
    refine ⟨i, k, hi, by rw [List.getElem?_append_right hi, hk], ?_⟩
    split at hy
    · simp at hy
    · rename_i hc
      rw [hname k (List.mem_of_getElem? hk)] at hy
      exact ⟨by simpa using hc, Option.mem_toList.1 hy⟩
  · rintro ⟨i, k, hi, hk, hc, hy⟩
    rw [List.getElem?_append_right hi] at hk
    refine ⟨k, i, ⟨hi, hk⟩, ?_⟩
    rw [hname k (List.mem_of_getElem? hk), hc, hy]
    simp

section Stepped

variable {p' : Proof} {more : List String} {left right news : List Strand} {closed : List String} {ag : Agenda}

/-- the lines that were made, closed where they could be -/
def closedLines (e : Setting) (p : Proof) (fs : List Frame) (d n : Node) (names : List String)
    (bs : List (List Sentence)) : List (List Node) :=
  (p.newLines d n names bs).map (closeLine e.calculus (fs.map (·.data) ++ [d]))

/-- the branches that were closed in a step -/
def newlyClosed (e : Setting) (p : Proof) (fs : List Frame) (d n : Node) (names : List String)
    (bs : List (List Sentence)) : List String :=
  (p.newLines d n names bs).flatMap fun ns =>
    if (lineVerdict e.calculus (fs.map (·.data) ++ [d]) ns).isSome then ns.map (·.branch) else []

theorem Stepped.mem_newlyClosed (hne : ∀ b ∈ bs, b ≠ []) (hstep : Stepped e p p' x fs d n bs more left right news)
    {b : String} :
    b ∈ newlyClosed e p fs d n (x.branch :: more) bs ↔ ∃ s ∈ news, s.leaf.branch = b ∧ s.leaf.closed ≠ none := by
  rw [newlyClosed, List.mem_flatMap]
  constructor
  · rintro ⟨ns, hns, hb⟩
    obtain ⟨name, b', hnb, rfl⟩ := mem_newLines hns
    obtain ⟨s, hs, hgo⟩ := hstep.exists_goesOn _ hnb
    split at hb
    · rename_i hsome
      obtain ⟨k, hk, rfl⟩ := List.mem_map.1 hb
      obtain ⟨y, -, rfl⟩ := List.mem_map.1 hk
      exact ⟨s, hs, hgo.branch, by rw [hgo.line]; exact Option.isSome_iff_ne_none.1 hsome⟩
    · simp at hb
  · rintro ⟨s, hs, rfl, hclosed⟩
    obtain ⟨nb, hnb, hgo⟩ := hstep.goesOn s hs
    rw [hgo.line] at hclosed
    refine ⟨_, List.mem_map_of_mem hnb, ?_⟩
    rw [if_pos (Option.isSome_iff_ne_none.2 hclosed), hgo.branch]
    obtain ⟨y, ys, heq⟩ := List.exists_cons_of_ne_nil (hne nb.2 (List.of_mem_zip hnb).2)
    simp [heq, newNode, Node.use]

/-- the new entries are those of the new nodes on the new branches -/
theorem Stepped.mem_entries (hstep : Stepped e p p' x fs d n bs more left right news) {y : String × Pending} :
    y ∈ (closedLines e p fs d n (x.branch :: more) bs).flatMap (lineEntries e (fs.map (·.data) ++ [d]).length) ↔
      ∃ s ∈ news, ∃ i k, (fs.map (·.data) ++ [d]).length ≤ i ∧ s.path[i]? = some k ∧ k.closed = none ∧
        entryFor e k.sentence s.leaf.branch i = some y := by
  rw [List.mem_flatMap]
  constructor
  · rintro ⟨ns', hns', hy⟩
    obtain ⟨ns, hns, rfl⟩ := List.mem_map.1 hns'
    obtain ⟨name, b, hnb, rfl⟩ := mem_newLines hns
    obtain ⟨s, hs, hgo⟩ := hstep.exists_goesOn _ hnb
    rw [hgo.mem_lineEntries] at hy
    exact ⟨s, hs, by rwa [hgo.branch]⟩
  · rintro ⟨s, hs, hy⟩
    obtain ⟨nb, hnb, hgo⟩ := hstep.goesOn s hs
    rw [hgo.branch] at hy
    exact ⟨_, List.mem_map_of_mem (List.mem_map_of_mem hnb), hgo.mem_lineEntries.2 hy⟩

/-- on a branch that stays open no new node has a mark -/
theorem GoesOn.isOpen {above : List Node} {name : String} {b : List Sentence} {s : Strand}
    (hgo : GoesOn e p above d n name b s) (hs : s.leaf.closed = none) :
    s.path = above ++ b.map fun y => (p.newNode d name y).use n.sentence := by
  rw [hgo.path]
  congr 1
  generalize hns : (b.map fun y => (p.newNode d name y).use n.sentence) = ns
  have hline := hgo.line
  rw [hs, hns] at hline
  by_cases hne : ns = []
  · simp [closeLine, hne]
  · rw [← List.dropLast_concat_getLast hne] at hline ⊢
    rw [closeLine_append, ← hline]
    rfl

/-- a branch that was not worked on is still there, and it has another name -/
theorem Stepped.other (hsane : p.tree.Sane e.calculus) (h : Taking e p rule x fs d n a m ps bs)
    (hstep : Stepped e p p' x fs d n bs more left right news) {s : Strand} (hs : s ∈ left ∨ s ∈ right) :
    s ∈ strands p.tree ∧ s ∈ strands p'.tree ∧ s.leaf.branch ≠ x.branch := by
  have hnames := hsane.names
  rw [hstep.old, List.map_append, List.map_cons, List.nodup_middle, List.nodup_cons, ← List.map_append] at hnames
  refine ⟨?_, ?_, fun heq => hnames.1 (List.mem_map.2 ⟨s, List.mem_append.2 hs, heq.trans h.branch.symm⟩)⟩
  · rw [hstep.old]
    rcases hs with hs | hs <;> simp [hs]
  · rw [hstep.new]
    rcases hs with hs | hs <;> simp [hs]

theorem Stepped.leaf_mem (hstep : Stepped e p p' x fs d n bs more left right news) :
    ⟨fs.map (·.data), d⟩ ∈ strands p.tree := by
  simp [hstep.old]

/-- the branch that was worked on goes on under its own name and under each of the other names -/
theorem Stepped.exists_new (hstep : Stepped e p p' x fs d n bs more left right news) {b : String}
    (hb : b ∈ x.branch :: more) :
    ∃ s ∈ news, s ∈ strands p'.tree ∧ s.leaf.branch = b ∧ Strand.path ⟨fs.map (·.data), d⟩ <+: s.path := by
  have hmap : ((x.branch :: more).zip bs).map Prod.fst = x.branch :: more := List.map_fst_zip hstep.length.le
  rw [← hmap] at hb
  obtain ⟨nb, hnb, rfl⟩ := List.mem_map.1 hb
  obtain ⟨s, hs, hgo⟩ := hstep.exists_goesOn nb hnb
  exact ⟨s, hs, by simp [hstep.new, hs], hgo.branch, by rw [hgo.path]; exact List.prefix_append _ _⟩

/-- entries stay valid; those of the branch that was worked on are valid on all branches it goes on in -/
theorem Stepped.valid (hsane : p.tree.Sane e.calculus) (h : Taking e p rule x fs d n a m ps bs)
    (hstep : Stepped e p p' x fs d n bs more left right news) {rule' : String} {y : Pending} (hy : Valid e p rule' y) :
    Valid e p' rule' y ∧ (y.branch = x.branch → ∀ b ∈ more, Valid e p' rule' { y with branch := b }) := by
  have hleaf := hstep.leaf_mem
  have hgoes (hyx : y.branch = x.branch) (b : String) (hb : b ∈ x.branch :: more) :
      Valid e p' rule' { y with branch := b } := by
    obtain ⟨s', -, hs', rfl, hpre⟩ := hstep.exists_new hb
    exact hy.extend hsane.names hleaf (h.branch.trans hyx.symm) hs' hpre
  refine ⟨?_, fun hyx b hb => hgoes hyx b (List.mem_cons_of_mem _ hb)⟩
  by_cases hyx : y.branch = x.branch
  · have := hgoes hyx x.branch List.mem_cons_self
    rwa [← hyx] at this
  · obtain ⟨s, hs, hb, -⟩ := id hy
    have hother : s ∈ left ∨ s ∈ right := by
      rw [hstep.old, List.mem_append, List.mem_cons] at hs
      rcases hs with hs | rfl | hs
      · exact .inl hs
      · exact absurd (hb.symm.trans h.branch) hyx
      · exact .inr hs
    have := hy.extend hsane.names hs hb (hstep.other hsane h hother).2.1 (List.prefix_refl _)
    rwa [hb] at this

theorem entryFor_branch {s : Sentence} {b : String} {i : Nat} {y : String × Pending} (h : entryFor e s b i = some y) :
    y.2.branch = b := by
  unfold entryFor at h
  split at h
  · obtain rfl := Option.some.inj h
    rfl
  · simp at h

theorem valid_of_entry (hx : e.HasLexer) (hsane : p.tree.Sane e.calculus) {s : Strand}
    (hs : s ∈ strands p.tree) {i : Nat} {k : Node} (hk : s.path[i]? = some k) {y : String × Pending}
    (hy : entryFor e k.sentence s.leaf.branch i = some y) : Valid e p y.1 y.2 ∧ y.1 ∈ ruleNames := by
  obtain ⟨a, ha⟩ := hsane.means s hs k (List.mem_of_getElem? hk)
  obtain ⟨plain, hplain, -, -, heq⟩ := entryFor_eq hx ha s.leaf.branch i
  rw [heq, Option.map_eq_some_iff] at hy
  obtain ⟨r, hr, rfl⟩ := hy
  exact ⟨⟨s, hs, rfl, k, a, hk, hplain, ha, hr⟩, rule?_mem hr⟩

theorem Stepped.valid_new (hx : e.HasLexer) (hstep : Stepped e p p' x fs d n bs more left right news)
    {y : String × Pending}
    (hy : y ∈ (closedLines e p fs d n (x.branch :: more) bs).flatMap (lineEntries e (fs.map (·.data) ++ [d]).length)) :
    Valid e p' y.1 y.2 ∧ y.1 ∈ ruleNames ∧ ∃ s ∈ news, y.2.branch = s.leaf.branch := by
  obtain ⟨s, hs, i, k, -, hk, -, hy⟩ := hstep.mem_entries.1 hy
  have hs' : s ∈ strands p'.tree := by simp [hstep.new, hs]
  obtain ⟨hvalid, hmem⟩ := valid_of_entry hx hstep.sane hs' hk hy
  exact ⟨hvalid, hmem, s, hs, entryFor_branch hy⟩

/-- all that is left to do on a new branch has an entry: for the nodes above an old one, maybe a
copy, for the new nodes a new one -/
theorem Stepped.complete (hx : e.HasLexer) (hs : Scheduled e p closed ag)
    (hlast : (ag.waiting rule).getLast? = some x) (hopen : x.branch ∉ closed) (h : Taking e p rule x fs d n a m ps bs)
    (hstep : Stepped e p p' x fs d n bs more left right news) {s : Strand} (hnew : s ∈ news)
    (hnone : s.leaf.closed = none)
    {k : Node} (hk : k ∈ s.path) (hused : s.leaf.history.contains k.sentence = false) {a' : Proposition}
    {rule' : String}
    (hmeans : e.calculus.Means k.sentence a') (hrule : a'.rule? = some rule') :
    let ag₁ := put rule (ag.waiting rule).dropLast ag
    ∃ y, (y ∈ Agenda.waiting ag₁ rule' ∨
        (∃ z ∈ Agenda.waiting ag₁ rule', z.branch = x.branch ∧ ∃ b ∈ more, y = { z with branch := b }) ∨
        (rule', y) ∈ (closedLines e p fs d n (x.branch :: more) bs).flatMap
          (lineEntries e (fs.map (·.data) ++ [d]).length)) ∧
      y.branch = s.leaf.branch ∧ e.calculus.toPlain e.lexer k.sentence = .ok y.sentence := by
  intro ag₁
  have hleaf := hstep.leaf_mem
  obtain ⟨nb, hnb, hgo⟩ := hstep.goesOn s hnew
  obtain ⟨plain, hplain, hread, hnode⟩ := toPlain_reads hx hmeans
  have hpath := hgo.isOpen hnone
  rw [hpath, List.mem_append] at hk
  rcases hk with hk | hk
  · -- a node above: it is not the one that was taken apart
    have hold : d.history.contains k.sentence = false ∧ k.sentence ≠ n.sentence := by
      rw [hgo.history, Bool.eq_false_iff, ne_eq, contains_insert, not_or] at hused
      simpa using hused
    obtain ⟨y, hy, hyb, hyplain⟩ := hs.complete _ hleaf
      (hs.isOpen rule x (List.mem_of_getLast? hlast) hopen _ hleaf h.branch) k hk hold.1 a' rule' hmeans hrule
    have hy : y ∈ Agenda.waiting ag₁ rule' := by
      rcases (mem_waiting_dropLast hlast).1 hy with hy | ⟨-, rfl⟩
      · exact hy
      · obtain ⟨plain', hplain', -, hnode'⟩ := toPlain_reads hx h.means
        have heq : plain = plain' := by
          rw [h.plain, Except.ok.injEq] at hplain'
          rw [hyplain, Except.ok.injEq] at hplain
          rw [← hplain, hplain']
        exact absurd (Except.ok.inj (hnode.symm.trans (heq ▸ hnode'))) hold.2
    rcases List.mem_cons.1 (List.of_mem_zip hnb).1 with hname | hname
    · exact ⟨y, .inl hy, by rw [hyb, hgo.branch, hname, h.branch], hyplain⟩
    · exact ⟨{ y with branch := nb.1 }, .inr (.inl ⟨y, hy, hyb.trans h.branch, nb.1, hname, rfl⟩),
        hgo.branch.symm, hyplain⟩
  · -- a new node
    obtain ⟨j, hj⟩ := List.getElem?_of_mem hk
    obtain ⟨plain', hplain', -, -, hentry⟩ := entryFor_eq hx hmeans s.leaf.branch ((fs.map (·.data) ++ [d]).length + j)
    have hindex : s.path[(fs.map (·.data) ++ [d]).length + j]? = some k := by
      rw [hpath, List.getElem?_append_right (Nat.le_add_right _ _), Nat.add_sub_cancel_left, hj]
    have hfresh : k.closed = none := by
      obtain ⟨y, -, rfl⟩ := List.mem_map.1 hk
      rfl
    refine ⟨⟨plain', s.leaf.branch, (fs.map (·.data) ++ [d]).length + j⟩, .inr (.inr ?_), rfl, hplain'⟩
    exact hstep.mem_entries.2 ⟨s, hnew, _, k, Nat.le_add_right _ _, hindex, hfresh, by rw [hentry, hrule]; rfl⟩

/-- **A step keeps the agenda in order.** -/
theorem Stepped.scheduled (hx : e.HasLexer) (hsane : p.tree.Sane e.calculus)
    (hs : Scheduled e p closed ag) (hlast : (ag.waiting rule).getLast? = some x) (hopen : x.branch ∉ closed)
    (h : Taking e p rule x fs d n a m ps bs) (hstep : Stepped e p p' x fs d n bs more left right news) :
    Scheduled e p' (closed ++ newlyClosed e p fs d n (x.branch :: more) bs)
      ((Agenda.spread (put rule (ag.waiting rule).dropLast ag) x.branch more).enter
        ((closedLines e p fs d n (x.branch :: more) bs).flatMap (lineEntries e (fs.map (·.data) ++ [d]).length))) := by
  have hleaf := hstep.leaf_mem
  have hxmem : x ∈ ag.waiting rule := List.mem_of_getLast? hlast
  have hkeep {rule' : String} {y : Pending} (hy : y ∈ Agenda.waiting (put rule (ag.waiting rule).dropLast ag) rule') :
      y ∈ ag.waiting rule' := (mem_waiting_dropLast hlast).2 (.inl hy)
  have hmem {s : Strand} (hs : s ∈ strands p'.tree) : (s ∈ left ∨ s ∈ right) ∨ s ∈ news := by
    rw [hstep.new, List.mem_append, List.mem_append] at hs
    tauto
  have hclosed {s : Strand} (hs : s ∈ news) (hb : s.leaf.branch ∉ closed ++
    newlyClosed e p fs d n (x.branch :: more) bs) : s.leaf.closed = none := by
    by_contra hne
    exact hb (List.mem_append_right _ ((hstep.mem_newlyClosed h.ne_nil).2 ⟨s, hs, rfl, hne⟩))
  refine ⟨?keyed, ?valid, ?isOpen, ?isClosed, ?complete⟩
  case keyed =>
    exact ((hs.keyed.put (rule?_mem h.rule?_eq) _).spread _ _).enter fun y hy => (hstep.valid_new hx hy).2.1
  case valid =>
    intro rule' y hy
    rcases mem_waiting_advance.1 hy with hy | ⟨z, hz, hzx, b, hb, rfl⟩ | hy
    · exact (hstep.valid hsane h (hs.valid rule' y (hkeep hy))).1
    · exact (hstep.valid hsane h (hs.valid rule' z (hkeep hz))).2 hzx b hb
    · exact (hstep.valid_new hx hy).1
  case isOpen =>
    intro rule' y hy hyc s hs' hsy
    rcases hmem hs' with hother | hnew
    · obtain ⟨hsp, -, -⟩ := hstep.other hsane h hother
      rcases mem_waiting_advance.1 hy with hy | ⟨z, -, -, b, hb, rfl⟩ | hy
      · exact hs.isOpen rule' y (hkeep hy) (fun hc => hyc (List.mem_append_left _ hc)) s hsp hsy
      · exact absurd hsy (hstep.fresh b hb s hsp)
      · -- a new entry is on a new branch
        obtain ⟨u, hu, hyu⟩ := (hstep.valid_new hx hy).2.2
        have hu' : u ∈ strands p'.tree := by simp [hstep.new, hu]
        obtain rfl := strand_unique hstep.sane.names hs' hu' (hsy.trans hyu)
        exact hclosed hu (hsy ▸ hyc)
    · exact hclosed hnew (hsy ▸ hyc)
  case isClosed =>
    intro b hb
    rcases List.mem_append.1 hb with hb | hb
    · obtain ⟨s, hsp, rfl, hne⟩ := hs.isClosed b hb
      rw [hstep.old, List.mem_append, List.mem_cons] at hsp
      rcases hsp with hsl | rfl | hsr
      · exact ⟨s, (hstep.other hsane h (.inl hsl)).2.1, rfl, hne⟩
      · exact absurd (h.branch ▸ hb) hopen
      · exact ⟨s, (hstep.other hsane h (.inr hsr)).2.1, rfl, hne⟩
    · obtain ⟨s, hsn, rfl, hne⟩ := (hstep.mem_newlyClosed h.ne_nil).1 hb
      exact ⟨s, by simp [hstep.new, hsn], rfl, hne⟩
  case complete =>
    intro s hs' hnone k hk hused a' rule' hmeans hrule
    simp only [mem_waiting_advance]
    rcases hmem hs' with hother | hnew
    · obtain ⟨hsp, -, hne⟩ := hstep.other hsane h hother
      obtain ⟨y, hy, hyb, hplain⟩ := hs.complete s hsp hnone k hk hused a' rule' hmeans hrule
      rcases (mem_waiting_dropLast hlast).1 hy with hy | ⟨-, rfl⟩
      · exact ⟨y, .inl hy, hyb, hplain⟩
      · exact absurd hyb.symm hne
    · exact hstep.complete hx hs hlast hopen h hnew hnone hk hused hmeans hrule

/-! ## The potential after a step -/

/-- what is copied to other branches has there the work that it had -/
theorem work_copies {branches : List String} (hnodup : branches.Nodup) (target : String) (xs : List Pending)
    (b : String) :
    Agenda.work (Agenda.copies target branches xs) b = if b ∈ branches then Agenda.work xs target else 0 := by
  have hone (y : Pending) :
      Agenda.work (branches.map fun b => { y with branch := b }) b = if b ∈ branches then y.sentence.effort else 0 := by
    induction branches with
    | nil => simp [Agenda.work]
    | cons c cs ih =>
      obtain ⟨hc, hcs⟩ := List.nodup_cons.1 hnodup
      rw [List.map_cons, Agenda.work_cons, ih hcs]
      by_cases hcb : c = b
      · subst hcb
        simp [hc]
      · simp [hcb, Ne.symm hcb]
  induction xs with
  | nil => simp [Agenda.copies, Agenda.work]
  | cons y ys ih =>
    by_cases hy : y.branch = target
    · have hcons : Agenda.copies target branches (y :: ys) =
          (branches.map fun b => { y with branch := b }) ++ Agenda.copies target branches ys := by
        simp [Agenda.copies, hy]
      rw [hcons, Agenda.work_append, hone, ih, Agenda.work_cons, if_pos hy]
      split <;> simp
    · have hcons : Agenda.copies target branches (y :: ys) = Agenda.copies target branches ys := by
        simp [Agenda.copies, hy]
      rw [hcons, ih, Agenda.work_cons, if_neg hy, Nat.zero_add]

/-- the entries of a line are on its branch, and they have no more work than what its sentences say -/
theorem work_lineEntries (hx : e.HasLexer) {ns : List Node} {qs : List Proposition}
    (h : List.Forall₂ (fun k q => e.calculus.Means k.sentence q) ns qs) (i : Nat) (b : String) :
    Agenda.work ((lineEntries e i ns).map (·.2)) b ≤ (qs.map (Proposition.effort · true)).sum := by
  induction h generalizing i with
  | nil => simp [lineEntries, Agenda.work]
  | @cons k q ns qs hk _ ih =>
    have hrest := ih (i + 1)
    obtain ⟨plain, -, hread, -, hentry⟩ := entryFor_eq hx hk k.branch i
    have hcons : lineEntries e i (k :: ns) =
        (if k.closed.isSome then [] else (entryFor e k.sentence k.branch i).toList) ++ lineEntries e (i + 1) ns := by
      simp [lineEntries]
    have hone : Agenda.work ((if k.closed.isSome then [] else (entryFor e k.sentence k.branch i).toList).map (·.2)) b ≤
        q.effort true := by
      split
      · simp [Agenda.work]
      · rw [hentry]
        cases q.rule? with
        | none => simp [Agenda.work]
        | some r =>
          simp only [Option.map_some, Option.toList_some, List.map_cons, List.map_nil, Agenda.work_cons, hread.effort]
          split <;> simp [Agenda.work]
    rw [hcons, List.map_append, Agenda.work_append, List.map_cons, List.sum_cons]
    omega

/-- the line that was made for a branch with a name -/
def madeLine (e : Setting) (p : Proof) (fs : List Frame) (d n : Node) (nb : String × List Sentence) : List Node :=
  closeLine e.calculus (fs.map (·.data) ++ [d]) (nb.2.map fun y => (p.newNode d nb.1 y).use n.sentence)

theorem closedLines_eq (names : List String) (bs : List (List Sentence)) :
    closedLines e p fs d n names bs = (names.zip bs).map (madeLine e p fs d n) := by
  simp only [closedLines, newLines, List.map_map]
  rfl

theorem branch_madeLine {nb : String × List Sentence} {i : Nat} {y : String × Pending}
    (hy : y ∈ lineEntries e i (madeLine e p fs d n nb)) : y.2.branch = nb.1 := by
  obtain ⟨⟨k, j⟩, hk, hy⟩ := List.mem_flatMap.1 hy
  have hkmem : k ∈ madeLine e p fs d n nb := (List.mem_zipIdx hk).2.2 ▸ List.getElem_mem _
  have hkb := List.mem_map_of_mem (f := fun k => k.branch) hkmem
  rw [madeLine, map_closeLine (by simp), List.map_map] at hkb
  obtain ⟨z, -, hname⟩ := List.mem_map.1 hkb
  simp only at hy
  split at hy
  · simp at hy
  · rw [entryFor_branch (Option.mem_toList.1 hy)]
    exact hname.symm

theorem branch_madeLines {zs : List (String × List Sentence)} {i : Nat} {y : Pending}
    (hy : y ∈ ((zs.map (madeLine e p fs d n)).flatMap (lineEntries e i)).map (·.2)) : y.branch ∈ zs.map Prod.fst := by
  obtain ⟨z, hz, rfl⟩ := List.mem_map.1 hy
  obtain ⟨ns, hns, hz⟩ := List.mem_flatMap.1 hz
  obtain ⟨nb, hnb, rfl⟩ := List.mem_map.1 hns
  exact List.mem_map.2 ⟨nb, hnb, (branch_madeLine hz).symm⟩

theorem work_lines_ne {zs : List (String × List Sentence)} {b : String} (hb : b ∉ zs.map Prod.fst) (i : Nat) :
    Agenda.work (((zs.map (madeLine e p fs d n)).flatMap (lineEntries e i)).map (·.2)) b = 0 :=
  Agenda.work_eq_zero fun _ hy heq => hb (heq ▸ branch_madeLines hy)

/-- where names differ, each branch has the work of its own line only -/
theorem work_lines (hx : e.HasLexer) {zs : List (String × List Sentence)}
    (hnodup : (zs.map Prod.fst).Nodup) {w : Nat} (hw : 0 < w)
    (hzs : ∀ nb ∈ zs, ∃ qs, List.Forall₂ e.calculus.Means nb.2 qs ∧ (qs.map (Proposition.effort · true)).sum < w)
    (i : Nat) (b : String) :
    Agenda.work (((zs.map (madeLine e p fs d n)).flatMap (lineEntries e i)).map (·.2)) b < w := by
  induction zs with
  | nil => simpa [Agenda.work] using hw
  | cons nb zs ih =>
    obtain ⟨⟨qs, hqs, hlt⟩, hrest⟩ := List.forall_mem_cons.1 hzs
    obtain ⟨hnb, hnodup⟩ := List.nodup_cons.1 hnodup
    have ih := ih hnodup hrest
    rw [List.map_cons, List.flatMap_cons, List.map_append, Agenda.work_append]
    by_cases hb : nb.1 = b
    · have hmeans : List.Forall₂ (fun k q => e.calculus.Means k.sentence q) (madeLine e p fs d n nb) qs := by
        have hmap : (madeLine e p fs d n nb).map (·.sentence) = nb.2 := by
          rw [madeLine, map_closeLine (by simp), List.map_map]
          exact List.map_id _
        rw [← hmap, List.forall₂_map_left_iff] at hqs
        exact hqs
      have hline := work_lineEntries hx hmeans i b
      rw [work_lines_ne (hb ▸ hnb)]
      omega
    · have hline : Agenda.work ((([nb].map (madeLine e p fs d n)).flatMap (lineEntries e i)).map (·.2)) b = 0 :=
        work_lines_ne (by simpa using Ne.symm hb) i
      simp only [List.map_cons, List.map_nil, List.flatMap_cons, List.flatMap_nil, List.append_nil] at hline
      omega

theorem pending_dropLast (hrule : rule ∈ ruleNames) (hlast : (ag.waiting rule).getLast? = some x) :
    ag.pending.Perm (x :: Agenda.pending (put rule (ag.waiting rule).dropLast ag)) := by
  have hput : Agenda.pending (put rule ((ag.waiting rule).dropLast ++ [x]) ag) = ag.pending := by
    refine List.flatMap_congr fun r _ => ?_
    rw [Agenda.waiting_put, List.dropLast_append_getLast? x hlast]
    split
    · rename_i h
      rw [h]
    · rfl
  rw [← hput]
  exact Agenda.pending_put hrule x

theorem Taking.effort_eq (hx : e.HasLexer) (h : Taking e p rule x fs d n a m ps bs) :
    x.sentence.effort = a.effort true := by
  obtain ⟨plain, hplain, hread, -⟩ := toPlain_reads hx h.means
  rw [← hread.effort, Except.ok.inj (hplain.symm.trans h.plain)]

/-- on every branch the new lines leave less work than there was in the sentence -/
theorem Taking.work_lt (hx : e.HasLexer) (h : Taking e p rule x fs d n a m ps bs) {names : List String}
    (hnodup : names.Nodup) (hlen : names.length = bs.length) (i : Nat) (b : String) :
    Agenda.work ((((names.zip bs).map (madeLine e p fs d n)).flatMap (lineEntries e i)).map (·.2)) b <
    a.effort true := by
  refine work_lines hx (by rwa [List.map_fst_zip hlen.le]) (effort_pos h.rule?_eq) (fun nb hnb => ?_) i b
  obtain ⟨qs, hqs, hmean⟩ := exists_of_forall₂ h.branches (List.of_mem_zip hnb).2
  exact ⟨qs, hmean, effort_expand h.method h.expand qs hqs⟩

/-- **A step lowers the potential.** -/
theorem Stepped.potential (hx : e.HasLexer) (hs : Scheduled e p closed ag)
    (hlast : (ag.waiting rule).getLast? = some x) (h : Taking e p rule x fs d n a m ps bs)
    (hstep : Stepped e p p' x fs d n bs more left right news) :
    Agenda.potential (Agenda.pending ((Agenda.spread (put rule (ag.waiting rule).dropLast ag) x.branch more).enter
        ((closedLines e p fs d n (x.branch :: more) bs).flatMap (lineEntries e (fs.map (·.data) ++ [d]).length)))) <
      Agenda.potential ag.pending := by
  have hrule := rule?_mem h.rule?_eq
  have hnodup := hstep.nodup
  have hentries : ∀ y ∈ (closedLines e p fs d n (x.branch :: more) bs).flatMap
      (lineEntries e (fs.map (·.data) ++ [d]).length), y.1 ∈ ruleNames := fun y hy => (hstep.valid_new hx hy).2.1
  rw [Agenda.potential_perm (pending_dropLast hrule hlast), Agenda.potential_perm (Agenda.pending_enter hentries),
    Agenda.potential_perm ((Agenda.pending_spread _ _).append_right _)]
  have hold : ∀ y ∈ x :: Agenda.pending (put rule (ag.waiting rule).dropLast ag), ∃ s ∈ strands p.tree, s.leaf.branch =
      y.branch := by
    intro y hy
    obtain ⟨r, -, hy⟩ := Agenda.mem_pending.1 ((pending_dropLast hrule hlast).mem_iff.2 hy)
    obtain ⟨s, hs, hb, -⟩ := hs.valid r y hy
    exact ⟨s, hs, hb⟩
  generalize Agenda.pending (put rule (ag.waiting rule).dropLast ag) = xs at hold ⊢
  rw [closedLines_eq]
  generalize hys : ((((x.branch :: more).zip bs).map (madeLine e p fs d n)).flatMap
    (lineEntries e (fs.map (·.data) ++ [d]).length)).map (·.2) = ys
  obtain ⟨hown, hmore⟩ := List.nodup_cons.1 hnodup
  have hfst : ((x.branch :: more).zip bs).map Prod.fst = x.branch :: more := List.map_fst_zip hstep.length.le
  -- the work of the lines, of the copies, and of what waited
  have hlines (b : String) : Agenda.work ys b < a.effort true := hys ▸ h.work_lt hx hnodup hstep.length _ b
  have hcopies := work_copies hmore x.branch xs
  have hfresh : ∀ b ∈ more, ∀ y ∈ x :: xs, y.branch ≠ b := by
    intro b hb y hy heq
    obtain ⟨s, hs, hsy⟩ := hold y hy
    exact hstep.fresh b hb s hs (hsy.trans heq)
  have hcons : Agenda.work (x :: xs) x.branch = a.effort true + Agenda.work xs x.branch := by
    rw [Agenda.work_cons, if_pos rfl, h.effort_eq hx]
  have hcard : (x.branch :: more).toFinset.card ≤ 2 := by
    refine (List.toFinset_card_le _).trans ?_
    rw [hstep.length]
    rcases h.shape with ⟨b, -, rfl⟩ | ⟨l, r, rfl⟩ <;> simp
  refine Agenda.potential_take hcard (by simp) (fun b hb hne => ?_) (fun y hy => ?_) (fun b hb => ?_) (fun b hb => ?_)
  · exact hfresh b ((List.mem_cons.1 (List.mem_toFinset.1 hb)).resolve_left hne)
  · rcases List.mem_append.1 hy with hy | hy
    · rcases List.mem_append.1 hy with hy | hy
      · exact .inr ⟨y, hy, rfl⟩
      · obtain ⟨z, -, -, b, hb, rfl⟩ := Agenda.mem_copies.1 hy
        exact .inl (by simp [hb])
    · exact .inl (List.mem_toFinset.2 (hfst ▸ branch_madeLines (hys ▸ hy)))
  · have hwork := hlines b
    rw [Agenda.work_append, Agenda.work_append, hcopies, hcons]
    rcases List.mem_cons.1 (List.mem_toFinset.1 hb) with rfl | hbm
    · rw [if_neg hown]
      omega
    · rw [if_pos hbm, Agenda.work_eq_zero fun y hy => hfresh b hbm y (List.mem_cons_of_mem _ hy)]
      omega
  · obtain ⟨hne, hbm⟩ : b ≠ x.branch ∧ b ∉ more := by simpa using hb
    have hzero : Agenda.work ys b = 0 := by
      rw [← hys]
      exact work_lines_ne (by rw [hfst]; simp [hne, hbm]) _
    rw [Agenda.work_append, Agenda.work_append, hcopies, if_neg hbm, hzero, Agenda.work_cons, if_neg (Ne.symm hne)]
    omega

end Stepped

/-! ## One step -/

/-- what is said when there is no name for a branch -/
def noName : Fault := .outOfRange "no branch name is left"

/-- no name for a branch is free -/
def OutOfNames (e : Setting) (p : Proof) : Prop := branchNames e.accessibility p.tree.branchNames = []

/-- the proof after a step -/
def grownProof (e : Setting) (p : Proof) (rule : String) (x : Pending) (fs : List Frame) (d n : Node)
    (names : List String) (bs : List (List Sentence)) (token : Int) : Proof :=
  { p with
    tree := plug fs (node d (lines (closedLines e p fs d n names bs))), used := p.used ++ [p.solverMove rule x token] }

/-- the proof after a step that failed for want of a name: there are lines as far as there were names -/
def stuckProof (e : Setting) (p : Proof) (x : Pending) (fs : List Frame) (d : Node) (bs : List (List Sentence)) :
    Proof :=
  { p with tree := plug fs (node d (sprouts (p.newNode d) (p.tree.namesFor e.accessibility x.branch bs.length) bs)) }

/-- steps of the solver keep what is said of a proof; after a step that fails, something else can be said -/
structure Upholds (e : Setting) (kept failed : Proof → Prop) : Prop where
  sane : ∀ {p}, kept p → p.tree.Sane e.calculus
  step : ∀ {p rule x fs d n a m ps bs more left right news token}, kept p → Taking e p rule x fs d n a m ps bs →
    p.tree.namesFor e.accessibility x.branch bs.length = x.branch :: more →
    Stepped e p (grownProof e p rule x fs d n (x.branch :: more) bs token) x fs d n bs more left right news →
    kept (grownProof e p rule x fs d n (x.branch :: more) bs token)
  fail : ∀ {p rule x fs d n a m ps bs}, kept p → Taking e p rule x fs d n a m ps bs →
    (p.tree.namesFor e.accessibility x.branch bs.length).length < bs.length → failed (stuckProof e p x fs d bs)

/-- **One step** on an entry of an open branch: what steps keep is kept, the agenda stays in order and the potential
falls; or there is no name for a branch. -/
theorem advance_run {kept failed : Proof → Prop} (hup : Upholds e kept failed) {closed : List String} {ag : Agenda}
    (hx : e.HasLexer) (hp : kept p) (hs : Scheduled e p closed ag)
    (hlast : (ag.waiting rule).getLast? = some x) (hopen : x.branch ∉ closed) :
    let run := exec (advance e rule x closed (put rule (ag.waiting rule).dropLast ag)) p
    (∃ p', run = (.error noName, p') ∧ failed p') ∨
    ∃ closed' ag' p', run = (.ok (closed', ag'), p') ∧ kept p' ∧ Scheduled e p' closed' ag' ∧
      Agenda.potential ag'.pending < Agenda.potential ag.pending := by
  intro run
  have hsane := hup.sane hp
  obtain ⟨fs, d, n, a, m, ps, bs, h⟩ := (hs.valid rule x (List.mem_of_getLast? hlast)).taking hx
  have hkeyed := hs.keyed.put (rule?_mem h.rule?_eq) (ag.waiting rule).dropLast
  rcases exec_advance hsane hx h hkeyed closed with ⟨hlen, hrun⟩ | ⟨hlen, token, hrun, hsane'⟩
  · exact .inl ⟨_, hrun, hup.fail hp h hlen⟩
  have hown : x.branch ∈ p.tree.branchNames := by
    rw [branchNames_eq, h.tree, ← h.branch]
    exact List.mem_map.2 ⟨_, strand_mem_plug fs d, rfl⟩
  obtain ⟨hnodup, more, hmore, hfree⟩ := namesFor_spec p.tree e.accessibility hown bs.length
  rw [hmore] at hlen hrun hsane' hnodup
  obtain ⟨left, right, news, hold, hnew, hgoes, hexists⟩ := strands_advance h hlen
  have hfresh : ∀ b ∈ more, ∀ s ∈ strands p.tree, s.leaf.branch ≠ b := by
    rintro b hb s hs rfl
    exact hfree _ hb (by rw [branchNames_eq]; exact List.mem_map_of_mem hs)
  have hstep : Stepped e p (grownProof e p rule x fs d n (x.branch :: more) bs token) x fs d n bs more
      left right news :=
    ⟨hsane', hlen, hnodup, hfresh, hold, hnew, hgoes, hexists⟩
  exact .inr ⟨_, _, _, hrun, hup.step hp h hmore hstep, hstep.scheduled hx hsane hs hlast hopen h,
    hstep.potential hx hs hlast h⟩

/-- a step that fails for want of a name leaves the names of the leaves as they are -/
theorem outOfNames_of_length_lt (h : Taking e p rule x fs d n a m ps bs)
    (hlen : (p.tree.namesFor e.accessibility x.branch bs.length).length < bs.length) :
    OutOfNames e (stuckProof e p x fs d bs) := by
  rcases h.shape with ⟨b, -, rfl⟩ | ⟨l, r, rfl⟩
  · simp [namesFor] at hlen
  have hfree : branchNames e.accessibility p.tree.branchNames = [] := by
    simp only [namesFor, List.length_cons, List.length_nil, List.length_take] at hlen
    exact List.eq_nil_of_length_eq_zero (by omega)
  have hnames : p.tree.namesFor e.accessibility x.branch ([[l], [r]] : List (List Sentence)).length = [x.branch] := by
    simp [namesFor, hfree]
  have hne : sprouts (p.newNode d) [x.branch] [[l], [r]] ≠ [] := by simp [sprouts, line]
  obtain ⟨left, right, hold, hnew⟩ := strands_grown fs d hne
  have hsame : (plug fs (node d (sprouts (p.newNode d) [x.branch] [[l], [r]]))).branchNames = p.tree.branchNames := by
    rw [branchNames_eq, branchNames_eq, hnew, h.tree, hold]
    simp [sprouts, line, strandsAll, strands, newNode, h.branch]
  rw [OutOfNames, stuckProof, hnames]
  exact hsame ▸ hfree

/-- **Steps keep a tree tended**, or no name for a branch is free. -/
theorem upholds_tended (e : Setting) (root : Sentence) :
    Upholds e (fun p => p.tree.Tended e.calculus root) (OutOfNames e) where
  sane hp := hp.sane
  step hp h _ hstep := hstep.tended hp h
  fail _ h hlen := outOfNames_of_length_lt h hlen

end Step

end Proof

end TableauTutor

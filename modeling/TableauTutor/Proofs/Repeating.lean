import TableauTutor.Proofs.Recording
import TableauTutor.Proofs.Steps

/-!
Moves that can be made again. A move does not depend on the marks of a tree, so it can be made on the tree without
marks; and a proof stays one whose moves can be made again, one after another, whatever is done to it.

- `movesBy_repeats`: what a person does with a rule can be done again.
- `Kept`: what is true of the proof of a session all the time.
- `Step.kept`: it is true after every step; `kept_useOn`, `kept_solve`: unless something breaks down.
-/

namespace TableauTutor

open ProofTree Calculus

namespace Proof

variable {e : Setting} {p : Proof} {b : String} {q : Place} {fs : List Frame} {d : Node} {rule : String}
    {context : Context}

/-- on every proof whose tree is `t`, the rule of a move can be used as it was; this makes the
tree `t'`, and records the move -/
def Repeats (e : Setting) (t : ProofTree) (u : UsedRule) (t' : ProofTree) : Prop :=
  ∀ p : Proof, p.tree = t →
    exec (useOn e u.rule u.context u.branch) p = (.ok (), { p with tree := t', used := p.used ++ [u] })

/-- **What a person does with a rule** can be done again where there are no marks. -/
theorem movesBy_repeats (e : Setting) : MovesBy (Repeats e) e := by
  intro p b q fs d rule context g s hfound hnames hrule hok p' hp'
  have ht : p'.tree = plug (fs.map Frame.unmark) (node d.unmark []) := by
    rw [hp', hfound.tree, unmarked_plug]
    rfl
  have hnames' : ((strands p'.tree).map (·.leaf.branch)).Nodup := by
    rw [hp', ← branchNames_eq, branchNames_unmarked, branchNames_eq]
    exact hnames
  obtain ⟨q', hfound'⟩ := found_plug hnames' ht
  have hbranch : d.unmark.branch = b := hfound.branch
  have hhistory : d.unmark.history = d.history := rfl
  have hsentences : ((fs.map Frame.unmark).map (·.data) ++ [d.unmark]).map (·.sentence)
      = (fs.map (·.data) ++ [d]).map (·.sentence) := by
    rw [List.map_map, List.map_append, List.map_append, List.map_map, List.map_map]
    rfl
  -- what is hung below the leaf does not depend on marks
  have hlayer : p'.tree.nextLayer = p.tree.nextLayer := by rw [hp', nextLayer_unmarked]
  have hnode : p'.grownNode d.unmark = p.grownNode d := by
    funext s n y
    cases s <;> simp only [grownNode, newNode, hlayer, hhistory]
  have hfor : p'.tree.namesFor e.accessibility b g.length = p.tree.namesFor e.accessibility d.branch g.length := by
    rw [hp', namesFor_unmarked, hfound.branch]
  have hnew : p'.newNode d.unmark = p.newNode d := congrFun hnode none
  have hok' : growthOutcome e p' d.unmark g = .ok () := by
    rw [growthOutcome, hnew, hbranch, hfor]
    exact hok
  have hgrowth : growth e p' d.unmark g (some s) = growth e p d g (some s) := by
    rw [growth, growth, hnode, hbranch, hfor]
  have hclean : unmarkedAll (growth e p d g (some s)) = growth e p d g (some s) :=
    unmarkedAll_sprouts (grownNode_closed _) _ _
  have hmove : p'.move rule context b = p.move rule context b := by rw [Proof.move, Proof.move, hlayer]
  have huse : exec (useOn e rule context d.unmark.branch) p' = _ := exec_useOn hfound'
  rw [hsentences, hhistory, hrule] at huse
  simp only [hok', hgrowth, hbranch, hmove] at huse
  rw [unmarked_plug, unmarked, hclean]
  exact huse

/-! ## Marking a leaf -/

theorem leaf?_of_leaf (h : p.leaf b = .ok q) : p.tree.leaf? b = some q.position := by
  obtain ⟨fs, d, ht, -, hfirst, hplace⟩ := place_of_leaf h
  rw [ht, place?_plug, Option.some.injEq] at hplace
  rw [hfirst, ← hplace]

theorem leaf?_of_leaf_error {f : Fault} (h : p.leaf b = .error f) : p.tree.leaf? b = none := by
  cases hfind : p.tree.leaves.find? (·.data.branch == b) with
  | none => rw [leaf?, hfind, Option.map_none]
  | some r =>
    have hmem : r.strand ∈ strands p.tree := by
      rw [← strands_eq_leaves]
      exact List.mem_map_of_mem (List.mem_of_find?_eq_some hfind)
    have hbranch : r.data.branch = b := by simpa using List.find?_some hfind
    obtain ⟨q, hq⟩ := exists_leaf ⟨r.strand, hmem, hbranch⟩
    rw [hq] at h
    cases h

theorem exec_closeBranch (h : p.Found b q fs d) (v : Closing) :
    exec (Session.closeBranch b v) p = (.ok (), { p with tree := plug fs (node { d with closed := some v } []) }) := by
  have hclose : p.tree.close q.position v = .ok (plug fs (node { d with closed := some v } [])) := by
    rw [h.tree, h.position, close_plug]
  simp only [Session.closeBranch, exec_bind, exec_get, leaf?_of_leaf h.leaf, exec_lift, hclose, exec_set]

theorem exec_closeBranch_error {f : Fault} (h : p.leaf b = .error f) (v : Closing) :
    exec (Session.closeBranch b v) p = (.error noLeaf, p) := by
  simp only [Session.closeBranch, exec_bind, exec_get, leaf?_of_leaf_error h, exec_throw]

/-- **A mark** keeps what is kept when a leaf gets it. -/
theorem keeps_marking {I : Proof → Prop} {v : Closing}
    (h : ∀ {p b q fs d}, p.Found b q fs d → I p → I { p with tree := plug fs (node { d with closed := some v } []) }) :
    Keeps I (Session.closeBranch b v) := by
  intro p hp
  cases hleaf : p.leaf b with
  | error f =>
    rw [exec_closeBranch_error hleaf]
    exact hp
  | ok q =>
    obtain ⟨fs, d, hfound⟩ := found_of_leaf hleaf
    rw [exec_closeBranch hfound]
    exact h hfound hp

/-! ## What is true of a proof all the time -/

theorem closesBy_plain (c : Calculus) : ClosesBy (fun _ v => v.template = none) c := by
  intro ss used v info h
  obtain ⟨found, -, h⟩ := of_bind_eq_ok h
  rcases found with _ | ⟨i, j⟩
  · obtain ⟨all, -, h⟩ := of_bind_eq_ok h
    cases all with
    | true =>
      obtain ⟨rfl, -⟩ := Prod.mk.inj (Option.some.inj (Except.ok.inj h))
      rfl
    | false => cases h
  · obtain ⟨rfl, -⟩ := Prod.mk.inj (Option.some.inj (Except.ok.inj h))
    rfl

/-- a proof of a statement from its negation. If `steady`, the moves that people made can be made again one after
another, and every node was made by a recorded move. If the statement says something, as it does in the calculus with
signs, the proof is sound -/
structure KeptFrom (steady : Prop) (e : Setting) (root : Sentence) (name : String) (p : Proof) : Prop where
  prepared : e.calculus.prepare e.lexer p.statement = .ok root
  known : name ∈ knownNames
  first : steady → name = (TableauTutor.branchNames e.accessibility []).headD ""
  orderly : p.Orderly (fun t u t' => steady → u.auto = false → Repeats e t u t') (fun _ v => v.template = none)
    p.statement root name []
  recorded : p.OnRecord steady
  signed : e.calculus = .signed → e.HasLexer ∧ ∃ a, p.statement.Expresses a
  sound : (∃ a, p.statement.Expresses a) → p.Sound e.calculus p.statement root name []

/-- what is true of the proof of a session all the time -/
def Kept (steady : Prop) (e : Setting) (p : Proof) : Prop := ∃ root name, p.KeptFrom steady e root name

variable {steady : Prop} {p' : Proof}

/-- **Every step** keeps a proof, if it leaves every node on record. -/
theorem Step.kept (h : Step e p p') (hp : p.Kept steady e) (hrecorded : p'.OnRecord steady) : p'.Kept steady e := by
  obtain ⟨root, name, hp⟩ := hp
  have horderly := h.orderly (fun hfound hnames hrule hok _ _ => movesBy_repeats e hfound hnames hrule hok)
    (fun hauto _ _ hfalse => absurd (hauto.symm.trans hfalse) (by decide)) (closesBy_plain _) hp.orderly
  have hstatement : p'.statement = p.statement := horderly.statement
  refine ⟨root, name, ⟨hstatement ▸ hp.prepared, hp.known, hp.first, hstatement ▸ horderly, hrecorded,
    hstatement ▸ hp.signed, fun hexpresses => ?_⟩⟩
  rw [hstatement] at hexpresses ⊢
  exact h.sound (fun hc => (hp.signed hc).1) (hp.sound hexpresses)

theorem Kept.recorded (hp : p.Kept steady e) : p.OnRecord steady := by
  obtain ⟨root, name, hp⟩ := hp
  exact hp.recorded

theorem Kept.goTo (hp : p.Kept steady e) (b : String) : Kept steady e { p with branch := b } :=
  (Step.goTo b p).kept hp hp.recorded

theorem Kept.undo (hp : p.Kept steady e) {kept rest : List UsedRule} {k : Int} (b : String)
    (hused : p.used = kept ++ rest) (hfirst : ∃ u ∈ rest, u.layer = k) (hleast : ∀ u ∈ rest, k ≤ u.layer) :
    Kept steady e { p with used := kept, tree := p.tree.prune k, branch := b } := by
  refine (Step.undo b hused hfirst hleast).kept hp fun hsteady => ?_
  obtain ⟨root, name, hp⟩ := hp
  have hrecorded := hp.recorded hsteady
  rw [hused] at hrecorded
  exact hrecorded.prune hp.orderly.root_layer hleast

theorem kept_dealClosure (b : String) : Keeps (Kept steady e) (dealClosure e b) :=
  fun p hp => (Step.close b p).kept hp (onRecord_dealClosure b p hp.recorded)

/-- **Using a rule** keeps a proof, unless it breaks down. -/
theorem kept_useOn (rule : String) (context : Context) (b : String) :
    KeepsSmooth steady (Kept steady e) (useOn e rule context b) :=
  fun p hp hsmooth => (Step.use rule context b p).kept hp (smooth_useOn rule context b p hp.recorded hsmooth)

/-- **The solver** keeps a proof, unless it breaks down. -/
theorem kept_solve : KeepsSmooth steady (Kept steady e) (solve e) := by
  intro p hp hsmooth
  refine (Step.solve p).kept hp ?_
  obtain ⟨root, name, hp⟩ := hp
  exact (smooth_solve (fun hauto _ _ hfalse => absurd (hauto.symm.trans hfalse) (by decide)) (closesBy_plain _) p
    ⟨hp.orderly, hp.recorded⟩ hsmooth).2

theorem keeps_closeBranch (b : String) {v : Closing} (hv : v.template = none) :
    Keeps (Kept steady e) (Session.closeBranch b v) := by
  refine keeps_marking fun hfound hp => ?_
  obtain ⟨root, name, hp⟩ := hp
  refine ⟨root, name, hp.prepared, hp.known, hp.first, hp.orderly.close hfound.tree hv, hp.recorded.close hfound.tree v,
    hp.signed, fun hexpresses => ?_⟩
  have hsound := hp.sound hexpresses
  exact ⟨Sane.close (hfound.tree ▸ hsound.sane) (some v), hsound.orderly.close hfound.tree trivial⟩

/-- the colours can be changed, unless moves are to be made again -/
theorem Kept.colours (hp : p.Kept steady e) {level : Int} (h : steady → level = e.accessibility) :
    p.Kept steady { e with accessibility := level } := by
  by_cases hs : steady
  · rwa [h hs]
  obtain ⟨root, name, hp⟩ := hp
  refine ⟨root, name, hp.prepared, hp.known, fun h => absurd h hs, ?_, fun h => absurd h hs, hp.signed, hp.sound⟩
  exact ⟨hp.orderly.statement, hp.orderly.built.mono fun _ _ _ _ h => absurd h hs, hp.orderly.start, hp.orderly.marked⟩

theorem known_first (level : Int) : (TableauTutor.branchNames level []).headD "" ∈ knownNames := by
  have hmem : "Brzoza" ∈ TableauTutor.branchNames level [] := by
    simp only [TableauTutor.branchNames, List.contains_nil, Bool.not_false, List.filter_true]
    exact List.mem_append_right _ (by decide)
  obtain ⟨n, ns, hns⟩ := List.exists_cons_of_ne_nil (List.ne_nil_of_mem hmem)
  apply branchNames_subset level []
  rw [hns]
  exact List.mem_cons_self

theorem prepare_means {c : Calculus} {x : Lexer} {st root : Sentence} {a : Proposition}
    (hx : c = .signed → c.HasLexer x)
    (h : st.Expresses a) (hroot : c.prepare x st = .ok root) : c.Means root (.neg a) := by
  cases c with
  | unsigned =>
    obtain rfl := Except.ok.inj hroot
    exact h.negate
  | signed =>
    obtain ⟨root', hroot', hmeans⟩ := toNode_means (hx rfl) h.negate
    rwa [Except.ok.inj (hroot'.symm.trans hroot)] at hmeans

/-- **A proof that is started** is kept; in the calculus with signs, its statement has to say something. -/
theorem Kept.start {st : Sentence} (h : Proof.start e st = .ok p)
    (hsigned : e.calculus = .signed → e.HasLexer ∧ ∃ a, st.Expresses a) : p.Kept steady e := by
  obtain ⟨root, hroot, h⟩ := of_bind_eq_ok h
  obtain rfl := Except.ok.inj h
  refine ⟨root, _, hroot, known_first e.accessibility, fun _ => rfl, .fresh, fun _ => .root _ _, hsigned,
    fun ⟨a, ha⟩ => .fresh ?_⟩
  exact ⟨_, prepare_means (fun hc => (hsigned hc).1) ha hroot⟩

end Proof

end TableauTutor

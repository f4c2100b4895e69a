import TableauTutor.Proofs.Waiting

/-!
Proofs whose moves are justified. As long as all nodes say something, a move hangs lines below a leaf
that follow loosely from a sentence of its branch. People and the solver make no other moves, whether
they succeed or fail in the end.

- `attends_of`: what is kept when the solver takes an entry apart.
- `keeps_solve_sound`: what the solver does, from any proof in order.
-/

namespace TableauTutor

open ProofTree Calculus

/-- all nodes of a tree say something -/
def ProofTree.Speaks (c : Calculus) (t : ProofTree) : Prop := ∀ s ∈ strands t, ∀ n ∈ s.path, ∃ a, c.Means n.sentence a

/-- in a tree that says something, the move hangs lines below the leaf of its branch that follow loosely from the
sentence that it names -/
def Calculus.Justified (c : Calculus) (t : ProofTree) (u : UsedRule) (t' : ProofTree) : Prop :=
  t.Speaks c → ∃ fs d nss m s a ps, t = plug fs (node d []) ∧ d.branch = u.branch ∧ t' = plug fs (node d (lines nss)) ∧
    (∀ ns ∈ nss, ns ≠ [] ∧ ∀ n ∈ ns, n.layer = t.nextLayer) ∧
    c.Derives u.rule u.context ((fs.map (·.data) ++ [d]).map (·.sentence)) (nss.map (·.map (·.sentence))) m s a ps

namespace Proof

variable {e : Setting} {p : Proof} {b : String} {q : Place} {fs : List Frame} {d : Node}

/-! ## Moves of a person -/

/-- the nodes of the lines that a growth without gaps makes, one for each branch that there is a name for -/
def grownLines (e : Setting) (p : Proof) (d : Node) (bs : List (List Sentence)) (s : Option Sentence) :
    List (List Node) :=
  ((p.tree.namesFor e.accessibility d.branch bs.length).zip bs).map fun nb => nb.2.map (p.grownNode d s nb.1)

theorem growth_eq_lines (bs : List (List Sentence)) (s : Option Sentence) :
    growth e p d (bs.map (·.map some)) s = lines (grownLines e p d bs s) := by
  rw [growth, List.length_map, sprouts, zip_hung]
  rfl

theorem sentences_grownLines {bs : List (List Sentence)}
    (hlen : bs.length ≤ (p.tree.namesFor e.accessibility d.branch bs.length).length) (s : Option Sentence) :
    (grownLines e p d bs s).map (·.map (·.sentence)) = bs := by
  have hsnd := List.map_snd_zip hlen
  conv_rhs => rw [← hsnd]
  simp [grownLines, Function.comp_def]

theorem mem_grownLines {bs : List (List Sentence)} (hbs : ∀ b ∈ bs, b ≠ []) (s : Option Sentence) :
    ∀ ns ∈ grownLines e p d bs s, ns ≠ [] ∧ ∀ n ∈ ns, n.layer = p.tree.unmarked.nextLayer := by
  intro ns hns
  obtain ⟨⟨name, b⟩, hnb, rfl⟩ := List.mem_map.1 hns
  refine ⟨by simpa using hbs b (List.of_mem_zip hnb).2, List.forall_mem_map.2 fun y _ => ?_⟩
  rw [grownNode_layer, nextLayer_unmarked]

theorem length_le_of_outcome {g : Calculus.Growth} (hg : ∀ b ∈ g, b ≠ []) (hok : growthOutcome e p d g = .ok ()) :
    g.length ≤ (p.tree.namesFor e.accessibility d.branch g.length).length := by
  rcases branchTrees_outcome (p.newNode d) hg with ⟨-, hlen, -⟩ | ⟨herr, -⟩ | ⟨herr, -⟩
  · exact hlen
  · rw [growthOutcome, herr] at hok
    cases hok
  · rw [growthOutcome, herr] at hok
    cases hok

theorem sentences_unmark (fs : List Frame) (d : Node) :
    ((fs.map Frame.unmark).map (·.data) ++ [d.unmark]).map (·.sentence) =
    (fs.map (·.data) ++ [d]).map (·.sentence) := by
  simp [Frame.unmark, Node.unmark]

theorem speaks_unmarked {c : Calculus} {t : ProofTree} : t.unmarked.Speaks c ↔ t.Speaks c :=
  forall_unmarked fun _ => Iff.rfl

/-- lines that are hung as a whole and follow loosely from a sentence of the branch are a justified move -/
theorem justified_growth (ht : p.tree = plug fs (node d [])) {bs : List (List Sentence)}
    (hfull : Full (bs.map (·.map some)))
    (hok : growthOutcome e p d (bs.map (·.map some)) = .ok ()) {u : UsedRule}
    (hbranch : d.branch = u.branch) {m : Method}
    {s : Sentence} {a : Proposition} {ps : List (List Proposition)}
    (hderives : e.calculus.Derives u.rule u.context ((fs.map (·.data) ++ [d]).map (·.sentence)) bs m s a ps) :
    e.calculus.Justified p.tree.unmarked u
      (plug fs (node d (growth e p d (bs.map (·.map some)) (some s)))).unmarked := by
  intro _
  have hne : ∀ b ∈ bs, b ≠ [] := fun b hb => by simpa using hfull.2 _ (List.mem_map_of_mem hb)
  have hlen := length_le_of_outcome hfull.2 hok
  rw [List.length_map] at hlen
  refine ⟨fs.map Frame.unmark, d.unmark, grownLines e p d bs (some s), m, s, a, ps, ?_, hbranch, ?_,
    mem_grownLines hne (some s), ?_⟩
  · rw [ht, unmarked_plug]
    rfl
  · rw [unmarked_growth, growth_eq_lines]
  · rw [sentences_unmark, sentences_grownLines hlen]
    exact hderives

/-- **What a person does with a rule** is justified. -/
theorem movesBy_justified (hx : e.HasLexer) : MovesBy e.calculus.Justified e := by
  intro p b q fs d rule context g s hfound hnames hrule hok hspeaks
  have hbranch : ∀ y ∈ (fs.map (·.data) ++ [d]).map (·.sentence), ∃ a, e.calculus.Means y a := by
    rw [speaks_unmarked, hfound.tree] at hspeaks
    exact List.forall_mem_map.2 (hspeaks _ (strand_mem_plug fs d))
  obtain ⟨ns, m, a, ps, rfl, hderives⟩ := useRule_follows hx hbranch hrule
  exact justified_growth hfound.tree (useRule_full hrule) hok hfound.branch hderives hspeaks

/-! ## Trees that say something -/

theorem mem_hung {names : List String} {bs : List (List Sentence)} {b : List Sentence}
    (h : b ∈ hung names (bs.map (·.map some))) : b ∈ bs := by
  induction bs generalizing names with
  | nil => cases names <;> simp [hung] at h
  | cons c bs ih =>
    cases names with
    | nil => simp [hung] at h
    | cons n names =>
      have hall : (c.map some).all (·.isSome) = true := by simp
      rw [List.map_cons, hung, if_pos hall, present_some] at h
      rcases List.mem_cons.1 h with rfl | h
      · exact List.mem_cons_self
      · exact List.mem_cons_of_mem _ (ih h)

theorem sane_growth (hp : p.tree.Sane e.calculus) (ht : p.tree = plug fs (node d [])) {bs : List (List Sentence)}
    (hbs : ∀ b ∈ bs, ∀ y ∈ b, ∃ a, e.calculus.Means y a) (s : Option Sentence) :
    Sane e.calculus (plug fs (node d (growth e p d (bs.map (·.map some)) s))) := by
  rw [growth, List.length_map, ht]
  exact Sane.grow (ht ▸ hp) e.accessibility bs.length (fun n y => ⟨grownNode_branch s n y, grownNode_sentence s n y⟩)
    fun b hb => hbs b (mem_hung hb)

theorem means_of_branchesMean {c : Calculus} {ns : List (List Sentence)} {ps : List (List Proposition)}
    (h : c.BranchesMean ns ps) : ∀ b ∈ ns, ∀ y ∈ b, ∃ a, c.Means y a := by
  intro b hb y hy
  obtain ⟨qs, -, hbq⟩ := exists_of_forall₂ h hb
  obtain ⟨a, -, hya⟩ := exists_of_forall₂ hbq hy
  exact ⟨a, hya⟩

theorem sane_used (hx : e.HasLexer) (hp : p.tree.Sane e.calculus) {b : String} {q : Place} {rule : String}
    {context : Context} {g : Growth} {s : Sentence} (hfound : p.Found b q fs d)
    (hrule : e.calculus.useRule e.lexer rule ((fs.map (·.data) ++ [d]).map (·.sentence)) d.history context =
      .ok (some (g, s)))
    (t : Option Sentence) : (plug fs (node d (growth e p d g t))).Sane e.calculus := by
  have hbranch : ∀ y ∈ (fs.map (·.data) ++ [d]).map (·.sentence), ∃ a, e.calculus.Means y a :=
    List.forall_mem_map.2 (Sane.means_plug (hfound.tree ▸ hp))
  obtain ⟨ns, m, a, ps, rfl, hderives⟩ := useRule_follows hx hbranch hrule
  exact sane_growth hp hfound.tree (means_of_branchesMean hderives.lines) t

/-- **Using a rule** keeps a tree sane. -/
theorem keeps_useOn_sane (hx : e.HasLexer) (rule : String) (context : Context) (b : String) :
    Keeps (fun p => p.tree.Sane e.calculus) (useOn e rule context b) :=
  keeps_using (fun hp hfound hrule => sane_used hx hp hfound hrule none) fun {_ _ _ _ _ s} hp hfound hrule _ =>
    sane_used hx hp hfound hrule (some s)

/-- **Closing a branch** keeps a tree sane. -/
theorem keeps_dealClosure_sane (b : String) : Keeps (fun p => p.tree.Sane e.calculus) (dealClosure e b) :=
  keeps_closing fun {_ _ _ _ v _} hp hfound _ => Sane.close (hfound.tree ▸ hp) (some v)

/-- taking layers away keeps a tree sane if the names of leaves still differ -/
theorem sane_prune {c : Calculus} {t : ProofTree} (h : t.Sane c) {k : Int}
    (hnames : ((strands (t.prune k)).map (·.leaf.branch)).Nodup) : (t.prune k).Sane c := by
  refine ⟨hnames, fun s hs n hn => ?_⟩
  obtain ⟨u, hu, hbefore⟩ := exists_strand_of_prune hs
  exact h.means u hu n (hbefore.subset hn)

/-! ## What steps of the solver keep -/

/-- an entry was read off the sentence `y` of the branch that ends at the leaf `d`, and the rule makes `bs` of it -/
structure Picking (e : Setting) (p : Proof) (rule : String) (x : Pending) (fs : List Frame) (d : Node)
    (y : Sentence) (m : Method) (bs : List (List Sentence)) : Prop where
  tree : p.tree = plug fs (node d [])
  branch : d.branch = x.branch
  named : ((fs.map (·.data) ++ [d]).map (·.sentence))[x.position]? = some y
  read : e.calculus.toPlain e.lexer y = .ok x.sentence
  ruleFor : e.calculus.ruleFor e.lexer y = .ok (some rule)
  method : (rule, m) ∈ ruleMethods
  strict : e.calculus.strict e.lexer m y = .ok (some bs)
  plain : ∀ z ∈ bs.flatten, ∃ plain, e.calculus.toPlain e.lexer z = .ok plain

variable {rule : String} {x : Pending} {y : Sentence} {m : Method} {bs : List (List Sentence)}
    {base : List UsedRule} {G : Prop} {K : Proof → Prop}

theorem Picking.full (h : Picking e p rule x fs d y m bs) : Full (bs.map (·.map some)) := full_of_strict h.strict

theorem exists_expand (hx : e.HasLexer) {a : Proposition} (ha : e.calculus.Means y a)
    (hstrict : e.calculus.strict e.lexer m y = .ok (some bs)) : ∃ ps, m.expand a = some ps ∧
    e.calculus.BranchesMean bs ps := by
  obtain ⟨bs', hbs', hmean⟩ := strict_means hx m ha
  obtain rfl := Except.ok.inj (hbs'.symm.trans hstrict)
  generalize m.expand a = ps at hmean
  cases hmean with
  | some hmean => exact ⟨_, rfl, hmean⟩

theorem exists_token (hm : method? rule = some m) (hplain : e.calculus.toPlain e.lexer y = .ok y)
    (hstrict : e.calculus.strict e.lexer m y = .ok (some bs)) : ∃ token, movedToken e.calculus rule y = .ok token := by
  obtain ⟨plain, hplain', hrest⟩ := of_bind_eq_ok hstrict
  obtain rfl : plain = y := Except.ok.inj (hplain'.symm.trans hplain)
  obtain ⟨taken, htaken, hmade⟩ := of_bind_eq_ok hrest
  cases taken with
  | none => cases hmade
  | some taken => exact exists_movedToken hm htaken e.calculus

/-- **Entries taken apart** keep what is kept when lines are hung below a leaf, and when they are also
recorded as a move with the sentence that the entry was read off and with a symbol of it. In the calculus with
signs, nodes have to say something. -/
theorem attends_of (hx : G → e.HasLexer) (hsigned : e.calculus = .signed → G)
    (hnames : ∀ {p}, K p → ((strands p.tree).map (·.leaf.branch)).Nodup) (hnamed : ∀ {p}, K p → p.tree.Named)
    (hclose : ∀ b, Keeps K (dealClosure e b))
    (hlost : ∀ {p fs d g}, K p → p.tree = plug fs (node d []) → (∀ b ∈ g, b ≠ []) →
      K { p with tree := plug fs (node d (growth e p d g none)) })
    (hmove : ∀ {p rule x fs d y m bs}, K p → Picking e p rule x fs d y m bs →
      growthOutcome e p d (bs.map (·.map some)) = .ok () →
      ∀ token, movedToken e.calculus rule x.sentence = .ok token → K { p with
        tree := plug fs (node d (growth e p d (bs.map (·.map some)) (some y))), used := p.used ++
          [p.solverMove rule x token] }) :
    Attends e fun p => (G → p.tree.Sane e.calculus) ∧ K p where
  names hp := hnames hp.2
  named hp := hnamed hp.2
  close b := .and (fun p hp hG => keeps_dealClosure_sane b p (hp hG)) (hclose b)
  take {p rule x} hp h := by
    obtain ⟨r, hr, hbranch, y, hy, hread⟩ := h
    have hmeans (hG : G) : ∃ a, e.calculus.Means y a := by
      obtain ⟨n, hn, rfl⟩ := List.mem_map.1 (List.mem_of_getElem? hy)
      exact (hp.1 hG).means r hr n hn
    obtain ⟨hplain, hnode⟩ := hread.plain fun hc => ⟨hx (hsigned hc), hmeans (hsigned hc)⟩
    rcases takeApart_cases e rule x p with ⟨f, hrun⟩ | ⟨m, bs, q, fs, d, hm, hstrict, hfound, hcases⟩
    · rw [hrun]
      exact hp
    -- a rule makes the same of the sentence of the entry and of the one it was read off
    have hstrict' : e.calculus.strict e.lexer m y = .ok (some bs) := by
      rw [← hstrict, Calculus.strict, Calculus.strict, hplain, hread.1]
    have hbranches (hG : G) : ∀ b ∈ bs, ∀ z ∈ b, ∃ a, e.calculus.Means z a := by
      obtain ⟨a, ha⟩ := hmeans hG
      obtain ⟨ps, -, hmean⟩ := exists_expand (hx hG) ha hstrict'
      exact means_of_branchesMean hmean
    have hpick : Picking e p rule x fs d y m bs := by
      refine ⟨hfound.tree, hfound.branch, ?_, hread.1, hread.2, mem_of_method? hm, hstrict', fun z hz => ?_⟩
      · have hmem : ⟨fs.map (·.data), d⟩ ∈ strands p.tree := by
          rw [hfound.tree]
          exact strand_mem_plug fs d
        obtain rfl := strand_unique (hnames hp.2) hr hmem (hbranch.trans hfound.branch.symm)
        exact hy
      · obtain ⟨b, hb, hzb⟩ := List.mem_flatten.1 hz
        exact exists_toPlain fun hc => ⟨hx (hsigned hc), hbranches (hsigned hc) b hb z hzb⟩
    have hsane (s : Option Sentence) (hG : G) : (plug fs (node d (growth e p d (bs.map (·.map some)) s))).Sane
        e.calculus :=
      sane_growth (hp.1 hG) hfound.tree (hbranches hG) s
    rcases hcases with ⟨f, -, hrun⟩ | ⟨hok, s, hs, ⟨f, htoken, -⟩ | ⟨token, htoken, hrun⟩⟩
    · rw [hrun]
      exact ⟨hsane none, hlost hp.2 hfound.tree hpick.full.2⟩
    · obtain ⟨token, htoken'⟩ := exists_token hm hplain hstrict
      cases htoken.symm.trans htoken'
    · rw [hrun]
      obtain rfl := Except.ok.inj (hnode.symm.trans hs)
      exact ⟨hsane (some y), hmove hp.2 hpick hok token htoken⟩

/-- what is kept when moves are taken back, with nodes that say something -/
theorem Retreats.sane (h : Retreats base K) (hnames : ∀ {p}, K p → ((strands p.tree).map (·.leaf.branch)).Nodup)
    (c : Calculus) : Retreats base fun p => (G → p.tree.Sane c) ∧ K p where
  stays hp := h.stays hp.2
  back hp hstart hused := by
    have hback := h.back hp.2 hstart hused
    exact ⟨fun hG => sane_prune (hp.1 hG) (hnames hback), hback⟩

section Orderly

variable {R : ProofTree → UsedRule → ProofTree → Prop} {st root : Sentence} {name : String} {start : List UsedRule}

theorem Orderly.remark (h : Orderly R (fun _ _ => True) st root name start p) {t : ProofTree}
    (ht : t.unmarked = p.tree.unmarked) : Orderly R (fun _ _ => True) st root name start { p with tree := t } :=
  ⟨h.statement, by rw [ht]; exact h.built, h.start, fun _ _ _ _ _ _ _ => trivial⟩

/-- what the solver does with a sentence is a move of the kind that proofs are built by -/
def PicksBy (R : ProofTree → UsedRule → ProofTree → Prop) (e : Setting) : Prop :=
  ∀ {p rule x fs d y m bs}, Picking e p rule x fs d y m bs → growthOutcome e p d (bs.map (·.map some)) = .ok () →
    ∀ token, movedToken e.calculus rule x.sentence = .ok token →
    R p.tree.unmarked (p.solverMove rule x token)
    (plug fs (node d (growth e p d (bs.map (·.map some)) (some y)))).unmarked

/-- **Steps of the solver** keep a proof in order, also if there is no name for a branch. -/
theorem attends_orderly (hR : PicksBy R e) (hx : G → e.HasLexer) (hsigned : e.calculus = .signed → G) :
    Attends e fun p => (G → p.tree.Sane e.calculus) ∧ Orderly R (fun _ _ => True) st root name start p := by
  refine attends_of hx hsigned Orderly.names (fun hp => (named_unmarked _).1 hp.built.named)
    (fun b => keeps_dealClosure (fun _ _ _ _ _ => trivial) b) (fun hp ht hg => hp.lost ht hg none)
    fun hp h hok token htoken => ?_
  exact hp.move h.tree h.full hok rfl (hR h hok token htoken)

/-- **The solver** keeps a proof in order. -/
theorem keeps_solve_orderly (hR : PicksBy R e) (hx : G → e.HasLexer) (hsigned : e.calculus = .signed → G) :
    Keeps (fun p => (G → p.tree.Sane e.calculus) ∧ Orderly R (fun _ _ => True) st root name start p) (solve e) :=
  (attends_orderly hR hx hsigned).solve (retreats_orderly.sane Orderly.names e.calculus)

end Orderly

/-! ## Moves of the solver -/

/-- a proof with justified moves whose nodes say something -/
structure Sound (c : Calculus) (st root : Sentence) (name : String) (start : List UsedRule) (p : Proof) : Prop where
  sane : p.tree.Sane c
  orderly : Orderly c.Justified (fun _ _ => True) st root name start p

variable {st root : Sentence} {name : String} {start : List UsedRule}

theorem Sound.fresh {c : Calculus} (h : ∃ a, c.Means root a) : Sound c st root name [] (.fresh st root name) :=
  ⟨.root h name, .fresh⟩

/-- **What the solver does with a sentence** is justified. -/
theorem picksBy_justified (hx : e.HasLexer) : PicksBy e.calculus.Justified e := by
  intro p rule x fs d y m bs h hok token _ hspeaks
  obtain ⟨a, ha⟩ : ∃ a, e.calculus.Means y a := by
    rw [speaks_unmarked, h.tree] at hspeaks
    obtain ⟨n, hn, rfl⟩ := List.mem_map.1 (List.mem_of_getElem? h.named)
    exact hspeaks _ (strand_mem_plug fs d) n hn
  obtain ⟨ps, hexpand, hmean⟩ := exists_expand hx ha h.strict
  have hnamed : ∃ v, ∃ i : Nat, (p.solverMove rule x token).context.lookup "sentenceID" = some v ∧
    v.index? = some (i : Int) ∧
      ((fs.map (·.data) ++ [d]).map (·.sentence))[i]? = some y := ⟨.whole x.position, x.position, rfl, rfl, h.named⟩
  exact justified_growth h.tree h.full hok h.branch ⟨h.method, hnamed, ha, hmean, .of_expand hexpand⟩ hspeaks

theorem keeps_dealClosure_sound (b : String) : Keeps (Sound e.calculus st root name start) (dealClosure e b) := by
  intro p hp
  exact ⟨keeps_dealClosure_sane b p hp.sane, keeps_dealClosure (fun _ _ _ _ _ => trivial) b p hp.orderly⟩

/-- **The solver** keeps a proof sound, from whatever state it starts. -/
theorem keeps_solve_sound (hx : e.HasLexer) : Keeps (Sound e.calculus st root name start) (solve e) := by
  intro p hp
  have hkept := keeps_solve_orderly (G := True) (picksBy_justified hx) (fun _ => hx)
    (fun _ => trivial) p ⟨fun _ => hp.sane, hp.orderly⟩
  exact ⟨hkept.1 trivial, hkept.2⟩

end Proof

end TableauTutor

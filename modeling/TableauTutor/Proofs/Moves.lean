import TableauTutor.Proof.Solver
import TableauTutor.Proofs.Layers
import TableauTutor.Proofs.LooseRules

/-!
What every computation on a proof keeps, whether it succeeds or fails: the tree, its marks apart, is built by the
recorded moves. Nothing is asked of the sentences here.

- `Endures.solve`: the solver keeps what each of its changes keeps.
- `keeps_useOn`, `keeps_dealClosure`, `keeps_solve`: proofs stay built.
-/

namespace TableauTutor

/-! ## Trees without marks -/

/-- the node without the mark of a closing -/
def Node.unmark (n : Node) : Node := { n with closed := none }

namespace ProofTree

mutual
/-- the tree without the marks of closings -/
def unmarked : ProofTree → ProofTree
  | node d ts => node d.unmark (unmarkedAll ts)

def unmarkedAll : List ProofTree → List ProofTree
  | [] => []
  | t :: ts => unmarked t :: unmarkedAll ts
end

def Frame.unmark (f : Frame) : Frame := ⟨f.data.unmark, unmarkedAll f.before, unmarkedAll f.after⟩

def Strand.unmark (s : Strand) : Strand := ⟨s.above.map Node.unmark, s.leaf.unmark⟩

theorem unmarkedAll_append (ts us : List ProofTree) : unmarkedAll (ts ++ us) = unmarkedAll ts ++ unmarkedAll us := by
  induction ts with
  | nil => rfl
  | cons t ts ih => simp [unmarkedAll, ih]

theorem unmarked_plug (fs : List Frame) (u : ProofTree) :
    (plug fs u).unmarked = plug (fs.map Frame.unmark) u.unmarked := by
  induction fs with
  | nil => rfl
  | cons f fs ih => simp [plug, unmarked, unmarkedAll_append, unmarkedAll, ih, Frame.unmark]

theorem unmarked_close (fs : List Frame) (d : Node) (c : Closing) :
    (plug fs (node { d with closed := some c } [])).unmarked = (plug fs (node d [])).unmarked := by
  rw [unmarked_plug, unmarked_plug]
  rfl

mutual
theorem strands_unmarked (t : ProofTree) : strands t.unmarked = (strands t).map Strand.unmark := by
  match t with
  | node d [] => rfl
  | node d (t :: ts) =>
    have hne : unmarkedAll (t :: ts) ≠ [] := by simp [unmarkedAll]
    rw [unmarked, strands_node hne, strands_node (by simp), strandsAll_unmarked, List.map_map, List.map_map]
    simp [Function.comp_def, Strand.below, Strand.unmark]

theorem strandsAll_unmarked (ts : List ProofTree) :
    strandsAll (unmarkedAll ts) = (strandsAll ts).map Strand.unmark := by
  match ts with
  | [] => rfl
  | t :: ts => rw [unmarkedAll, strandsAll, strandsAll, strands_unmarked t, strandsAll_unmarked ts, List.map_append]
end

theorem Strand.path_unmark (s : Strand) : s.unmark.path = s.path.map Node.unmark := by simp [Strand.unmark, Strand.path]

theorem Strand.sentences_unmark (s : Strand) : s.unmark.sentences = s.sentences := by
  rw [Strand.sentences, Strand.path_unmark, List.map_map]
  rfl

/-- what does not depend on marks is true of all nodes of a tree with or without them -/
theorem forall_unmarked {t : ProofTree} {P : Node → Prop} (hP : ∀ n, P n.unmark ↔ P n) :
    (∀ s ∈ strands t.unmarked, ∀ n ∈ s.path, P n) ↔ ∀ s ∈ strands t, ∀ n ∈ s.path, P n := by
  simp only [strands_unmarked, List.forall_mem_map, Strand.path_unmark, hP]

theorem branchNames_unmarked (t : ProofTree) : t.unmarked.branchNames = t.branchNames := by
  rw [branchNames_eq, branchNames_eq, strands_unmarked, List.map_map]
  rfl

theorem nextLayer_unmarked (t : ProofTree) : t.unmarked.nextLayer = t.nextLayer := by
  rw [nextLayer, nextLayer, leaves_map t.unmarked (·.layer), leaves_map t (·.layer), strands_unmarked, List.map_map]
  rfl

theorem namesFor_unmarked (t : ProofTree) (level : Int) (own : String) (n : Int) :
    t.unmarked.namesFor level own n = t.namesFor level own n := by
  rw [namesFor, namesFor, branchNames_unmarked]

theorem data_unmarked (t : ProofTree) : t.unmarked.data = t.data.unmark := by
  cases t
  rfl

mutual
theorem prune_unmarked (k : Int) (t : ProofTree) : (prune k t).unmarked = prune k t.unmarked := by
  match t with
  | node d ts => rw [prune, unmarked, unmarked, prune, pruneAll_unmarked]

theorem pruneAll_unmarked (k : Int) (ts : List ProofTree) :
    unmarkedAll (pruneAll k ts) = pruneAll k (unmarkedAll ts) := by
  match ts with
  | [] => rfl
  | t :: ts =>
    have hlayer : t.unmarked.data.layer = t.data.layer := by rw [data_unmarked]; rfl
    rw [pruneAll, unmarkedAll, pruneAll, hlayer]
    split
    · rw [unmarkedAll, prune_unmarked, pruneAll_unmarked]
    · exact pruneAll_unmarked k ts
end

theorem unmarkedAll_line (ns : List Node) : unmarkedAll (line ns) = line (ns.map Node.unmark) := by
  induction ns with
  | nil => rfl
  | cons n ns ih => simp [line, unmarkedAll, unmarked, ih]

theorem unmarkedAll_lines (nss : List (List Node)) : unmarkedAll (lines nss) = lines (nss.map (·.map Node.unmark)) := by
  induction nss with
  | nil => rfl
  | cons ns nss ih => simp [unmarkedAll_append, unmarkedAll_line, ih]

theorem unmarkedAll_sprouts {make : String → Sentence → Node} (hmake : ∀ n s, (make n s).closed = none)
    (names : List String)
    (bs : List (List Sentence)) : unmarkedAll (sprouts make names bs) = sprouts make names bs := by
  have hself (n : String) (s : Sentence) : (make n s).unmark = make n s := by
    have := hmake n s
    generalize make n s = m at this
    obtain ⟨sentence, branch, layer, history, closed⟩ := m
    obtain rfl : closed = none := this
    rfl
  simp [sprouts, unmarkedAll_lines, Function.comp_def, hself]

/-! ## Marks -/

/-- every mark fits the node that has it and the nodes above -/
def AllMarks (M : List Node → Node → Closing → Prop) (t : ProofTree) : Prop :=
  ∀ s ∈ strands t, ∀ ns n, ns ++ [n] <+: s.path → ∀ c, n.closed = some c → M ns n c

namespace AllMarks

variable {M : List Node → Node → Closing → Prop} {t : ProofTree} {fs : List Frame} {d : Node}

theorem root (s : Sentence) (name : String) : AllMarks M (.root s name) := by
  intro u hu ns n hn c hc
  obtain rfl : u = ⟨[], { sentence := s, branch := name }⟩ := by simpa [Built.strands_root] using hu
  have hmem := hn.subset (List.mem_append_right ns (List.mem_singleton.2 rfl))
  obtain rfl : n = { sentence := s, branch := name } := by simpa [Strand.path] using hmem
  cases hc

theorem prune (h : AllMarks M t) (k : Int) : AllMarks M (t.prune k) := by
  intro s hs ns n hn c hc
  obtain ⟨u, hu, hbefore⟩ := exists_strand_of_prune hs
  exact h u hu ns n (hn.trans hbefore) c hc

theorem grow (h : AllMarks M (plug fs (node d []))) {ts : List ProofTree}
    (hts : ∀ s ∈ strandsAll ts, ∀ n ∈ s.path, n.closed = none) : AllMarks M (plug fs (node d ts)) := by
  intro s hs ns n hn c hc
  rcases strand_grown_cases hs with hs | ⟨u, hu, rfl⟩
  · exact h s hs ns n hn c hc
  · rw [Strand.path_below] at hn
    -- a node with a mark is not one of the new ones, so it is on the old strand
    have hbefore : ns ++ [n] <+: fs.map (·.data) ++ [d] := by
      by_cases hlen : (ns ++ [n]).length ≤ (fs.map (·.data) ++ [d]).length
      · exact List.prefix_of_prefix_length_le hn (List.prefix_append _ _) hlen
      · have hget : (fs.map (·.data) ++ [d] ++ u.path)[ns.length]? = some n := by
          obtain ⟨rest, heq⟩ := hn
          rw [← heq]
          simp
        simp only [List.length_append, List.length_singleton] at hlen
        rw [List.getElem?_append_right (by rw [List.length_append, List.length_singleton]; omega)] at hget
        rw [hts u hu n (List.mem_of_getElem? hget)] at hc
        cases hc
    exact h _ (strand_mem_plug fs d) ns n hbefore c hc

theorem close (h : AllMarks M (plug fs (node d []))) {v : Closing}
    (hv : M (fs.map (·.data)) { d with closed := some v } v) :
    AllMarks M (plug fs (node { d with closed := some v } [])) := by
  obtain ⟨left, right, hold, hnew⟩ := strands_replaced fs d { d with closed := some v }
  intro s hs ns n hn c hc
  rw [hnew, List.mem_append, List.mem_cons] at hs
  rcases hs with hs | rfl | hs
  · exact h s (by simp [hold, hs]) ns n hn c hc
  · rcases List.prefix_concat_iff.1 hn with heq | hbefore
    · obtain ⟨rfl, hlast⟩ := List.append_inj' heq rfl
      obtain rfl := List.singleton_inj.1 hlast
      obtain rfl := Option.some.inj hc
      exact hv
    · exact h _ (strand_mem_plug fs d) ns n (hbefore.trans (List.prefix_append _ _)) c hc
  · exact h s (by simp [hold, hs]) ns n hn c hc

end AllMarks

/-- every mark fits the sentences down to the node that has it -/
def Marked (M : List Sentence → Closing → Prop) (t : ProofTree) : Prop :=
  AllMarks (fun ns n => M ((ns ++ [n]).map (·.sentence))) t

theorem Marked.close {M : List Sentence → Closing → Prop} {fs : List Frame} {d : Node}
    (h : Marked M (plug fs (node d [])))
    {v : Closing} (hv : M ((fs.map (·.data) ++ [d]).map (·.sentence)) v) :
    Marked M (plug fs (node { d with closed := some v } [])) :=
  AllMarks.close h (by simpa using hv)

/-! ## What is hung below a leaf -/

theorem head?_own {make : String → Sentence → Node} (hmake : ∀ n s, (make n s).branch = n) (own : String)
    (more : List String)
    {g : Calculus.Growth} (hg : ∀ b ∈ g, b ≠ []) (hne : sprouts make (own :: more) (hung (own :: more) g) ≠ []) :
    ((strandsAll (sprouts make (own :: more) (hung (own :: more) g))).map (·.leaf.branch)).head? = some own := by
  cases g with
  | nil => simp [hung, sprouts] at hne
  | cons b g =>
    have hb := hg b List.mem_cons_self
    by_cases hp : present b = []
    · -- the first sentence is missing, so nothing is hung
      have hall : b.all (·.isSome) = false := by
        by_contra h
        rw [Bool.not_eq_false] at h
        have := map_some_present h
        rw [hp] at this
        exact hb this.symm
      simp [hung, hall, hp, sprouts, line] at hne
    · obtain ⟨s, hs, hpath⟩ := strandsAll_line (by simpa using hp : (present b).map (make own) ≠ [])
      obtain ⟨y, -, hy⟩ := List.mem_map.1 (Strand.leaf_of_path hpath)
      rw [hung, sprouts, List.zip_cons_cons, List.map_cons, lines_cons, strandsAll_append, hs, List.singleton_append,
        List.map_cons, List.head?_cons, ← hy, hmake]

/-- **What a move hangs below a leaf** is an offshoot there, unless nothing is there to hang. -/
theorem offshoot_sprouts {fs : List Frame} {d : Node} (level : Int) {g : Calculus.Growth} (hg : ∀ b ∈ g, b ≠ [])
    {make : String → Sentence → Node}
    (hmake : ∀ n s, (make n s).branch = n ∧ (make n s).layer = (plug fs (node d [])).nextLayer) :
    let names := (plug fs (node d [])).namesFor level d.branch g.length
    let ts := sprouts make names (hung names g)
    ts = [] ∨ Offshoot (plug fs (node d [])) d ts := by
  intro names ts
  by_cases hne : ts = []
  · exact .inl hne
  have hown : d.branch ∈ (plug fs (node d [])).branchNames := by
    rw [branchNames_eq]
    exact List.mem_map_of_mem (strand_mem_plug fs d)
  obtain ⟨hnodup, more, hmore, hfree⟩ := namesFor_spec _ level hown g.length
  have hsub := leafNames_sprouts (fun n s => (hmake n s).1) names (hung names g)
  -- the nodes of a strand are made for one name
  have hline {s : Strand} (hs : s ∈ strandsAll ts) : ∃ name, ∀ n ∈ s.path, ∃ y, n = make name y := by
    obtain ⟨name, b, -, hpath⟩ := path_sprouts hs
    refine ⟨name, fun n hn => ?_⟩
    rw [hpath] at hn
    obtain ⟨y, -, rfl⟩ := List.mem_map.1 hn
    exact ⟨y, rfl⟩
  refine .inr ⟨?_, ?_, hnodup.sublist hsub, ?_, ?_⟩
  · intro s hs n hn
    obtain ⟨name, hname⟩ := hline hs
    obtain ⟨y, rfl⟩ := hname n hn
    exact (hmake name y).2
  · have := head?_own (fun n s => (hmake n s).1) d.branch more hg
    rw [← hmore] at this
    exact this hne
  · intro s hs
    have hmem := hsub.subset (List.mem_map_of_mem hs)
    simp only [names, hmore] at hmem
    refine (List.mem_cons.1 hmem).imp_right fun hmem => ⟨hfree _ hmem, ?_⟩
    rw [namesFor, List.cons.injEq] at hmore
    rw [← hmore.2] at hmem
    exact branchNames_subset level _ (List.mem_of_mem_take hmem)
  · intro s hs n hn
    obtain ⟨name, hname⟩ := hline hs
    obtain ⟨y, rfl⟩ := hname n hn
    obtain ⟨z, hz⟩ := hname s.leaf (leaf_mem_path s)
    rw [hz, (hmake name y).1, (hmake name z).1]

end ProofTree

/-! ## Using a rule -/

/-- there are branches, and none of them is empty -/
def Full {α : Type} (bs : List (List α)) : Prop := bs ≠ [] ∧ ∀ b ∈ bs, b ≠ []

theorem Decomposition.arrange_full {α : Type} (d : Decomposition) (a b : α) : Full (d.arrange a b) := by
  unfold arrange
  split <;> simp [Full]

namespace Calculus

variable {c : Calculus} {x : Lexer}

theorem full_of_mapM_mapM {α β : Type} {f : α → Outcome β} {as : List (List α)} {bs : List (List β)}
    (h : as.mapM (fun a => a.mapM f) = .ok bs) (hfull : Full as) : Full bs := by
  have hne {as : List α} {bs : List β} (h : as.mapM f = .ok bs) (has : as ≠ []) : bs ≠ [] := by
    rw [← List.length_pos_iff] at has ⊢
    rwa [← (forall₂_of_mapM h).length_eq]
  replace h := forall₂_of_mapM h
  refine ⟨fun hbs => hfull.1 ?_, ?_⟩
  · rw [← List.length_eq_zero_iff, h.length_eq, hbs, List.length_nil]
  replace hfull := hfull.2
  induction h with
  | nil => simp
  | cons hb _ ih =>
    obtain ⟨ha, hrest⟩ := List.forall_mem_cons.1 hfull
    exact List.forall_mem_cons.2 ⟨hne hb ha, ih hrest⟩

theorem naive_full {m : Method} {branch : List Sentence} {numbers : List Int} {g : Growth}
    (h : c.naive x m branch numbers = .ok (some g)) : Full g := by
  have hnaive {d : Decomposition} {branch : List Sentence} {i j : Int} {g : Growth} (h : d.naive branch i j = .ok g) :
      Full g := by
    obtain ⟨s, -, h⟩ := of_bind_eq_ok h
    obtain ⟨⟨⟩, -, h⟩ := of_bind_eq_ok h
    obtain ⟨t, -, h⟩ := of_bind_eq_ok h
    cases t with
    | none => cases h
    | some t =>
      obtain ⟨⟨l, r⟩, -, h⟩ := of_bind_eq_ok h
      rw [← Except.ok.inj h]
      exact d.arrange_full _ _
  unfold naive at h
  split at h
  · obtain ⟨g', hg, heq⟩ := of_map_eq_ok h
    obtain rfl := Option.some.inj heq
    simp only [removeDoubleNegation] at hg
    split at hg
    · obtain ⟨p, -, hg⟩ := of_bind_eq_ok hg
      obtain ⟨_ | t, -, hg⟩ := of_bind_eq_ok hg
      · cases hg
      obtain ⟨n, -, hg⟩ := of_bind_eq_ok hg
      rw [← Except.ok.inj hg]
      simp [Full]
    · cases hg
  · cases c with
    | unsigned =>
      obtain ⟨g', hg, heq⟩ := of_map_eq_ok h
      obtain rfl := Option.some.inj heq
      exact hnaive hg
    | signed =>
      simp only [decompose] at h
      split at h
      · obtain ⟨shift, -, h⟩ := of_bind_eq_ok h
        obtain ⟨plain, -, h⟩ := of_bind_eq_ok h
        obtain ⟨g', hg', h⟩ := of_bind_eq_ok h
        obtain ⟨made, hmade, h⟩ := of_bind_eq_ok h
        replace h := Except.ok.inj h
        split at h
        · cases h
        · rw [← Option.some.inj h]
          exact full_of_mapM_mapM hmade (hnaive hg')
      · cases h
  · cases h

theorem strict_full {m : Method} {s : Sentence} {bs : List (List Sentence)} (h : c.strict x m s = .ok (some bs)) :
    Full bs := by
  obtain ⟨p, -, h⟩ := of_bind_eq_ok h
  obtain ⟨_ | made, hmade, h⟩ := of_bind_eq_ok h
  · cases h
  obtain ⟨bs', hbs, h⟩ := of_bind_eq_ok h
  obtain rfl := Option.some.inj (Except.ok.inj h)
  refine full_of_mapM_mapM hbs ?_
  cases m with
  | doubleNegation =>
    obtain ⟨r, -, heq⟩ := of_map_eq_ok hmade
    obtain ⟨t, -, rfl⟩ := Option.map_eq_some_iff.1 heq
    simp [Full]
  | decomposition d =>
    obtain ⟨_ | t, -, hmade⟩ := of_bind_eq_ok hmade
    · cases hmade
    obtain ⟨_ | ⟨l, r⟩, -, hmade⟩ := of_bind_eq_ok hmade
    · cases hmade
    rw [← Option.some.inj (Except.ok.inj hmade)]
    exact d.arrange_full _ _

theorem useRule_full {rule : String} {branch : List Sentence} {used : History} {context : Context} {g : Growth}
    {s : Sentence} (h : c.useRule x rule branch used context = .ok (some (g, s))) : Full g := by
  obtain ⟨m, d, i, -, -, -, -, -, numbers, -, hnaive⟩ := useRule_eq_some h
  exact naive_full hnaive

end Calculus

namespace Proof

open ProofTree

variable {e : Setting} {p : Proof} {b : String} {q : Place} {fs : List Frame} {d : Node} {rule : String}
    {context : Context}

/-- a new node below the leaf `d`, with a sentence marked as used if one was -/
def grownNode (p : Proof) (d : Node) (s : Option Sentence) (name : String) (y : Sentence) : Node :=
  match s with
  | none => p.newNode d name y
  | some s => (p.newNode d name y).use s

@[simp] theorem grownNode_branch (s : Option Sentence) (n : String) (y : Sentence) :
    (p.grownNode d s n y).branch = n := by
  cases s <;> rfl

@[simp] theorem grownNode_sentence (s : Option Sentence) (n : String) (y : Sentence) :
    (p.grownNode d s n y).sentence = y := by
  cases s <;> rfl

@[simp] theorem grownNode_layer (s : Option Sentence) (n : String) (y : Sentence) :
    (p.grownNode d s n y).layer = p.tree.nextLayer := by
  cases s <;> rfl

@[simp] theorem grownNode_closed (s : Option Sentence) (n : String) (y : Sentence) :
    (p.grownNode d s n y).closed = none := by
  cases s <;> rfl

/-- the lines that a growth makes below a leaf, as far as there are names and sentences for them -/
def growth (e : Setting) (p : Proof) (d : Node) (g : Calculus.Growth) (s : Option Sentence) : List ProofTree :=
  let names := p.tree.namesFor e.accessibility d.branch g.length
  sprouts (p.grownNode d s) names (hung names g)

theorem mem_growth {g : Calculus.Growth} {s : Option Sentence} {u : Strand}
    (hu : u ∈ strandsAll (growth e p d g s)) {n : Node} (hn : n ∈ u.path) : ∃ name y, n = p.grownNode d s name y := by
  obtain ⟨name, b, -, hpath⟩ := path_sprouts hu
  rw [hpath] at hn
  obtain ⟨y, -, rfl⟩ := List.mem_map.1 hn
  exact ⟨name, y, rfl⟩

theorem growth_closed {g : Calculus.Growth} {s : Option Sentence} {u : Strand}
    (hu : u ∈ strandsAll (growth e p d g s)) {n : Node} (hn : n ∈ u.path) : n.closed = none := by
  obtain ⟨name, y, rfl⟩ := mem_growth hu hn
  exact grownNode_closed s name y

/-- whether a growth can be carried out as a whole -/
def growthOutcome (e : Setting) (p : Proof) (d : Node) (g : Calculus.Growth) : Outcome Unit :=
  (branchTrees (p.newNode d) (p.tree.namesFor e.accessibility d.branch g.length) g).2

/-- the record of a move that a person made -/
def move (p : Proof) (rule : String) (context : Context) (b : String) : UsedRule :=
  { layer := p.tree.nextLayer, branch := b, rule, context }

theorem exec_grow_growth (h : p.Found b q fs d) {g : Calculus.Growth} (hg : ∀ b ∈ g, b ≠ []) :
    exec (grow e b g) p = ((growthOutcome e p d g).map fun _ => p.tree.nextLayer,
      { p with tree := plug fs (node d (growth e p d g none)) }) := by
  obtain rfl := h.branch
  exact exec_grow h hg

theorem length_growth {g : Calculus.Growth} (hg : ∀ b ∈ g, b ≠ []) (hok : growthOutcome e p d g = .ok ())
    (s : Option Sentence) : (growth e p d g s).length = g.length := by
  rcases branchTrees_outcome (p.newNode d) hg with ⟨-, hlen, heq⟩ | ⟨herr, -⟩ | ⟨herr, -⟩
  · have hne : ∀ b ∈ hung (p.tree.namesFor e.accessibility d.branch g.length) g, b ≠ [] := by
      rintro b hb rfl
      refine hg [] ?_ rfl
      rw [heq]
      exact List.mem_map_of_mem (f := List.map some) hb
    have hlength := congrArg List.length heq
    rw [List.length_map] at hlength
    rw [growth, length_sprouts _ hne (by omega)]
    exact hlength.symm
  · rw [growthOutcome, herr] at hok
    cases hok
  · rw [growthOutcome, herr] at hok
    cases hok

theorem exec_markUsed_growth {g : Calculus.Growth} (hg : ∀ b ∈ g, b ≠ []) (hok : growthOutcome e p d g = .ok ())
    {k : Nat} (hk : k = offset fs) (s : Sentence) :
    exec (markUsed k g.length s) { p with tree := plug fs (node d (growth e p d g none)) } =
      (.ok (), { p with tree := plug fs (node d (growth e p d g (some s))) }) := by
  have hmark := exec_markUsed (p := { p with tree := plug fs (node d (growth e p d g none)) }) rfl s
  rw [length_growth hg hok, ← hk] at hmark
  rw [hmark, growth, useAll_sprouts]
  rfl

/-- **A rule used on a branch**: it is refused, it yields nothing, or lines are hung below the leaf. If they are all
there, the sentence that the rule was used on is marked as used on them, and the move is recorded. -/
theorem exec_useOn (h : p.Found b q fs d) :
    exec (useOn e rule context b) p =
      match e.calculus.useRule e.lexer rule ((fs.map (·.data) ++ [d]).map (·.sentence)) d.history context with
      | .error (.rule r) => (.error (.refusal (.relayed r.message)), p)
      | .error f => (.error f, p)
      | .ok none => (.ok (), p)
      | .ok (some (g, s)) =>
        match growthOutcome e p d g with
        | .error f => (.error f, { p with tree := plug fs (node d (growth e p d g none)) })
        | .ok () => (.ok (), { p with
            tree := plug fs (node d (growth e p d g (some s))), used := p.used ++ [p.move rule context b] }) := by
  have hpath : q.path = fs.map (·.data) ++ [d] := by
    rw [Place.path_eq, h.strand]
    rfl
  have hdata : q.data = d := congrArg Strand.leaf h.strand
  simp only [useOn, exec_bind, exec_get, exec_lift, h.leaf, hpath, hdata]
  generalize hrule : e.calculus.useRule e.lexer rule ((fs.map (·.data) ++ [d]).map (·.sentence)) d.history context = r
  rcases r with f | _ | ⟨g, s⟩
  · cases f <;> rfl
  · rfl
  · have hg := (Calculus.useRule_full hrule).2
    have hgrow := exec_grow_growth (e := e) h hg
    simp only [exec_bind, hgrow]
    cases hok : growthOutcome e p d g with
    | error f => rfl
    | ok =>
      have hmark := exec_markUsed_growth hg hok h.position s
      simp only [Except.map, hmark, exec_modify]
      rfl

/-- how the use of a rule on a branch ends -/
inductive UseEnds (e : Setting) (rule : String) (context : Context) (b : String) (p : Proof) :
    Except Fault Unit → Proof → Prop
  | refused (f : Fault) : UseEnds e rule context b p (.error f) p
  | idle {q : Place} {fs : List Frame} {d : Node} (hfound : p.Found b q fs d)
      (hrule : e.calculus.useRule e.lexer rule ((fs.map (·.data) ++ [d]).map (·.sentence)) d.history
        context = .ok none) :
      UseEnds e rule context b p (.ok ()) p
  | lost {q : Place} {fs : List Frame} {d : Node} {g : Calculus.Growth} {s : Sentence} {f : Fault}
      (hfound : p.Found b q fs d)
      (hrule : e.calculus.useRule e.lexer rule ((fs.map (·.data) ++ [d]).map (·.sentence)) d.history context =
        .ok (some (g, s)))
      (hlost : growthOutcome e p d g = .error f) :
      UseEnds e rule context b p (.error f) { p with tree := plug fs (node d (growth e p d g none)) }
  | made {q : Place} {fs : List Frame} {d : Node} {g : Calculus.Growth} {s : Sentence} (hfound : p.Found b q fs d)
      (hrule : e.calculus.useRule e.lexer rule ((fs.map (·.data) ++ [d]).map (·.sentence)) d.history context =
        .ok (some (g, s)))
      (hok : growthOutcome e p d g = .ok ()) :
      UseEnds e rule context b p (.ok ())
        { p with tree := plug fs (node d (growth e p d g (some s))), used := p.used ++ [p.move rule context b] }

theorem useOn_ends {r : Except Fault Unit} {p' : Proof} (h : exec (useOn e rule context b) p = (r, p')) :
    UseEnds e rule context b p r p' := by
  cases hleaf : p.leaf b with
  | error f =>
    simp only [useOn, exec_bind, exec_get, exec_lift, hleaf] at h
    obtain ⟨rfl, rfl⟩ := Prod.mk.inj h
    exact .refused f
  | ok q =>
    obtain ⟨fs, d, hfound⟩ := found_of_leaf hleaf
    rw [exec_useOn hfound] at h
    rcases hrule : e.calculus.useRule e.lexer rule ((fs.map (·.data) ++ [d]).map (·.sentence)) d.history context with
      f | _ | ⟨g, s⟩ <;> rw [hrule] at h
    · cases f <;> (obtain ⟨rfl, rfl⟩ := Prod.mk.inj h; exact .refused _)
    · obtain ⟨rfl, rfl⟩ := Prod.mk.inj h
      exact .idle hfound hrule
    · cases hok : growthOutcome e p d g <;> simp only [hok] at h <;> obtain ⟨rfl, rfl⟩ := Prod.mk.inj h
      · exact .lost hfound hrule hok
      · exact .made hfound hrule hok

theorem unmarkedAll_growth (g : Calculus.Growth) (s : Option Sentence) :
    unmarkedAll (growth e p d g s) = growth e p d g s :=
  unmarkedAll_sprouts (grownNode_closed s) _ _

theorem unmarked_growth (g : Calculus.Growth) (s : Option Sentence) :
    (plug fs (node d (growth e p d g s))).unmarked = plug (fs.map Frame.unmark) (node d.unmark (growth e p d g s)) := by
  rw [unmarked_plug, unmarked, unmarkedAll_growth]

/-- what a move hangs below a leaf is an offshoot of the tree without its marks, unless nothing is hung -/
theorem offshoot_growth (ht : p.tree = plug fs (node d [])) {g : Calculus.Growth} (hg : ∀ b ∈ g, b ≠ [])
    (s : Option Sentence) : growth e p d g s = [] ∨ Offshoot p.tree.unmarked d.unmark (growth e p d g s) := by
  have hunmarked : p.tree.unmarked = plug (fs.map Frame.unmark) (node d.unmark []) := by rw [ht, unmarked_plug]; rfl
  have hlayer := nextLayer_unmarked p.tree
  have hnames := namesFor_unmarked p.tree e.accessibility d.branch g.length
  rw [hunmarked] at hlayer hnames
  have hmake : ∀ n y, (p.grownNode d s n y).branch = n ∧
      (p.grownNode d s n y).layer = (plug (fs.map Frame.unmark) (node d.unmark [])).nextLayer := by
    intro n y
    exact ⟨grownNode_branch s n y, by rw [grownNode_layer, hlayer]⟩
  have hoff := offshoot_sprouts e.accessibility hg hmake
  rw [show d.unmark.branch = d.branch from rfl, hnames] at hoff
  rw [hunmarked]
  exact hoff

/-- what a move hangs below a leaf grows the tree without its marks, unless nothing is hung -/
theorem grows_growth (ht : p.tree = plug fs (node d [])) {g : Calculus.Growth} (hg : ∀ b ∈ g, b ≠ [])
    (s : Option Sentence) :
    growth e p d g s = [] ∨ Grows p.tree.unmarked (plug fs (node d (growth e p d g s))).unmarked := by
  refine (offshoot_growth ht hg s).imp_right fun hoff => ⟨_, _, _, ?_, unmarked_growth g s, hoff⟩
  rw [ht, unmarked_plug]
  rfl

/-! ## Proofs that are built by their moves -/

/-- a proof of a statement whose tree is built by its moves, with marks that fit; `start`
are moves that are not taken back -/
structure Orderly (R : ProofTree → UsedRule → ProofTree → Prop) (M : List Sentence → Closing → Prop)
    (statement root : Sentence) (name : String) (start : List UsedRule) (p : Proof) : Prop where
  statement : p.statement = statement
  built : Built R root name p.tree.unmarked p.used
  start : start <+: p.used
  marked : p.tree.Marked M

/-- the layer after the last of some moves -/
abbrev layerAfter (log : List UsedRule) : Int := ((log.getLast?).map (·.layer)).getD 0 + 1

theorem lt_layerAfter {log : List UsedRule} (hsorted : log.Pairwise (·.layer < ·.layer)) :
    ∀ u ∈ log, u.layer < layerAfter log := by
  intro u hu
  obtain ⟨l, v, rfl⟩ : ∃ l v, log = l ++ [v] := ⟨_, _, (List.dropLast_concat_getLast (List.ne_nil_of_mem hu)).symm⟩
  rw [layerAfter, List.getLast?_concat, Option.map_some, Option.getD_some]
  rcases List.mem_append.1 hu with hu | hu
  · have := (List.pairwise_append.1 hsorted).2.2 u hu v (List.mem_singleton.2 rfl)
    omega
  · rw [List.mem_singleton.1 hu]
    omega

theorem layerAfter_pos {log : List UsedRule} (hpos : ∀ u ∈ log, 0 < u.layer) : 0 < layerAfter log := by
  cases hlast : log.getLast? with
  | none => simp [layerAfter, hlast]
  | some u =>
    have := hpos u (List.mem_of_getLast? hlast)
    simp only [layerAfter, hlast, Option.map_some, Option.getD_some]
    omega

/-- a proof with nothing but its root -/
def fresh (statement root : Sentence) (name : String) : Proof := { statement, tree := .root root name, branch := name }

section Orderly

variable {R : ProofTree → UsedRule → ProofTree → Prop} {M : List Sentence → Closing → Prop} {st root : Sentence}
    {name : String} {start : List UsedRule}

namespace Orderly

theorem names (h : Orderly R M st root name start p) : ((strands p.tree).map (·.leaf.branch)).Nodup := by
  have := h.built.names
  rwa [strands_unmarked, List.map_map] at this

theorem rising (h : Orderly R M st root name start p) :
    ∀ s ∈ strands p.tree, ∀ n ∈ s.path, n.layer < p.tree.nextLayer := by
  rw [← nextLayer_unmarked]
  exact (forall_unmarked (P := fun n => n.layer < p.tree.unmarked.nextLayer) fun _ => Iff.rfl).1 h.built.rising

theorem marked_growth (h : Orderly R M st root name start p) (ht : p.tree = plug fs (node d [])) (g : Calculus.Growth)
    (s : Option Sentence) : Marked M (plug fs (node d (growth e p d g s))) :=
  AllMarks.grow (ht ▸ h.marked) fun _ hu _ => growth_closed hu

theorem fresh : Orderly R M st root name [] (.fresh st root name) :=
  ⟨rfl, .root, List.nil_prefix, .root root name⟩

theorem lost (h : Orderly R M st root name start p) (ht : p.tree = plug fs (node d [])) {g : Calculus.Growth}
    (hg : ∀ b ∈ g, b ≠ []) (s : Option Sentence) :
    Orderly R M st root name start { p with tree := plug fs (node d (growth e p d g s)) } := by
  refine ⟨h.statement, ?_, h.start, h.marked_growth ht g s⟩
  rcases grows_growth (e := e) ht hg s with hnil | hgrows
  · simp only [hnil, ← ht]
    exact h.built
  · exact h.built.lost hgrows

theorem move (h : Orderly R M st root name start p) (ht : p.tree = plug fs (node d []))
    {g : Calculus.Growth} (hg : Full g)
    (hok : growthOutcome e p d g = .ok ()) {s : Option Sentence} {u : UsedRule} (hu : u.layer = p.tree.nextLayer)
    (hR : R p.tree.unmarked u (plug fs (node d (growth e p d g s))).unmarked) :
    Orderly R M st root name start { p with tree := plug fs (node d (growth e p d g s)), used := p.used ++ [u] } := by
  refine ⟨h.statement, ?_, h.start.trans (List.prefix_append _ _), h.marked_growth ht g s⟩
  rcases grows_growth (e := e) ht hg.2 s with hnil | hgrows
  · have hlen := length_growth hg.2 hok s
    rw [hnil, List.length_nil] at hlen
    exact absurd (List.length_eq_zero_iff.1 hlen.symm) hg.1
  · exact h.built.move hgrows (by rw [hu, nextLayer_unmarked]) hR

theorem close (h : Orderly R M st root name start p) (ht : p.tree = plug fs (node d [])) {v : Closing}
    (hv : M ((fs.map (·.data) ++ [d]).map (·.sentence)) v) :
    Orderly R M st root name start { p with tree := plug fs (node { d with closed := some v } []) } := by
  refine ⟨h.statement, ?_, h.start, Marked.close (ht ▸ h.marked) hv⟩
  have hbuilt := h.built
  rw [ht] at hbuilt
  simpa only [unmarked_close] using hbuilt

theorem prune (h : Orderly R M st root name start p) {kept rest : List UsedRule}
    (hused : p.used = kept ++ rest) {k : Int}
    (hkept : ∀ u ∈ kept, u.layer < k) (hrest : ∀ u ∈ rest, k ≤ u.layer) (hstart : start <+: kept) (b : String) :
    Orderly R M st root name start { p with used := kept, tree := p.tree.prune k, branch := b } := by
  refine ⟨h.statement, ?_, hstart, h.marked.prune k⟩
  have hfilter : p.used.filter (·.layer < k) = kept := by
    rw [hused, List.filter_append, List.filter_eq_self.2 (by simpa using hkept),
      List.filter_eq_nil_iff.2 (by simpa using hrest), List.append_nil]
  have := h.built.prune k
  rwa [hfilter, ← prune_unmarked] at this

theorem layers (h : Orderly R M st root name start p) :
    p.used.Pairwise (·.layer < ·.layer) ∧ ∀ u ∈ p.used, 0 < u.layer :=
  ⟨h.built.increasing, h.built.layer_pos⟩

theorem lt_layer (h : Orderly R M st root name start p) {rest : List UsedRule} (hused : start ++ rest = p.used) :
    ∀ u ∈ rest, layerAfter start ≤ u.layer := by
  obtain ⟨hsorted, hpos⟩ := h.layers
  rw [← hused] at hsorted hpos
  intro u hu
  cases hlast : start.getLast? with
  | none =>
    have := hpos u (List.mem_append_right _ hu)
    simp only [layerAfter, hlast, Option.map_none, Option.getD_none]
    omega
  | some v =>
    have := (List.pairwise_append.1 hsorted).2.2 v (List.mem_of_getLast? hlast) u hu
    simp only [layerAfter, hlast, Option.map_some, Option.getD_some]
    omega

theorem takeBack (h : Orderly R M st root name start p) {rest : List UsedRule} (hused : start ++ rest = p.used) :
    Orderly R M st root name start { p with used := start, tree := p.tree.prune (layerAfter start) } := by
  refine h.prune hused.symm (lt_layerAfter ?_) (h.lt_layer hused) List.prefix_rfl p.branch
  obtain ⟨hsorted, -⟩ := h.layers
  rw [← hused] at hsorted
  exact (List.pairwise_append.1 hsorted).1

end Orderly

/-- the marks that the closure check of a calculus puts on leaves fit -/
def ClosesBy (M : List Sentence → Closing → Prop) (c : Calculus) : Prop :=
  ∀ ss used v info, c.closure ss used = .ok (some (v, info)) → M ss v

/-- what a person does with a rule is a move of the kind that proofs are built by -/
def MovesBy (R : ProofTree → UsedRule → ProofTree → Prop) (e : Setting) : Prop :=
  ∀ {p : Proof} {b : String} {q : Place} {fs : List Frame} {d : Node} {rule : String} {context : Context}
    {g : Calculus.Growth} {s : Sentence}, p.Found b q fs d → ((strands p.tree).map (·.leaf.branch)).Nodup →
    e.calculus.useRule e.lexer rule ((fs.map (·.data) ++ [d]).map (·.sentence)) d.history context = .ok (some (g, s)) →
    growthOutcome e p d g = .ok () →
    R p.tree.unmarked (p.move rule context b) (plug fs (node d (growth e p d g (some s)))).unmarked

/-- using a rule keeps what growth keeps, whether it is recorded or fails halfway -/
theorem keeps_using {J : Proof → Prop}
    (hlost : ∀ {p q fs d g s}, J p → p.Found b q fs d →
      e.calculus.useRule e.lexer rule ((fs.map (·.data) ++ [d]).map (·.sentence)) d.history context =
      .ok (some (g, s)) →
      J { p with tree := plug fs (node d (growth e p d g none)) })
    (hmove : ∀ {p q fs d g s}, J p → p.Found b q fs d →
      e.calculus.useRule e.lexer rule ((fs.map (·.data) ++ [d]).map (·.sentence)) d.history context =
      .ok (some (g, s)) →
      growthOutcome e p d g = .ok () →
      J { p with tree := plug fs (node d (growth e p d g (some s))), used := p.used ++ [p.move rule context b] }) :
    Keeps J (useOn e rule context b) := by
  intro p hp
  rcases hrun : exec (useOn e rule context b) p with ⟨r, p'⟩
  cases useOn_ends hrun with
  | refused => exact hp
  | idle => exact hp
  | lost hfound hrule => exact hlost hp hfound hrule
  | made hfound hrule hok => exact hmove hp hfound hrule hok

/-- **Using a rule** keeps a proof in order. -/
theorem keeps_useOn (hR : MovesBy R e) (rule : String) (context : Context) (b : String) :
    Keeps (Orderly R M st root name start) (useOn e rule context b) :=
  keeps_using (fun hp hfound hrule => hp.lost hfound.tree (Calculus.useRule_full hrule).2 none)
    fun hp hfound hrule hok => hp.move hfound.tree (Calculus.useRule_full hrule) hok rfl (hR hfound hp.names hrule hok)

/-- closing a branch keeps what the mark of its leaf leaves true -/
theorem keeps_closing {J : Proof → Prop} (hclose : ∀ {p q fs d v info}, J p → p.Found b q fs d →
      e.calculus.closure ((fs.map (·.data) ++ [d]).map (·.sentence)) d.history = .ok (some (v, info)) →
      J { p with tree := plug fs (node { d with closed := some v } []) }) : Keeps J (dealClosure e b) := by
  intro p hp
  cases hleaf : p.leaf b with
  | error f =>
    simp only [dealClosure, exec_bind, exec_get, exec_lift, hleaf]
    exact hp
  | ok q =>
    obtain ⟨fs, d, hfound⟩ := found_of_leaf hleaf
    rw [exec_dealClosure hfound]
    generalize hclosure : e.calculus.closure ((fs.map (·.data) ++ [d]).map (·.sentence)) d.history = r
    rcases r with f | _ | ⟨v, info⟩
    · exact hp
    · exact hp
    · exact hclose hp hfound hclosure

/-- the closure check changes marks only -/
theorem unmarked_dealClosure (e : Setting) (b : String) (p : Proof) :
    (exec (dealClosure e b) p).2.tree.unmarked = p.tree.unmarked := by
  refine keeps_closing (J := fun q => q.tree.unmarked = p.tree.unmarked) (fun hq hfound _ => ?_) p rfl
  rw [unmarked_close, ← hfound.tree, hq]

/-- **Closing a branch** keeps a proof in order. -/
theorem keeps_dealClosure (hM : ClosesBy M e.calculus) (b : String) :
    Keeps (Orderly R M st root name start) (dealClosure e b) :=
  keeps_closing fun hp hfound hclosure => hp.close hfound.tree (hM _ _ _ _ hclosure)

/-- the proof where work goes on at a place, or where it was -/
def GoneTo (p p' : Proof) : Prop :=
  ∃ b, p' = { p with branch := b } ∧ (b = p.branch ∨ ∃ q ∈ p.tree.places, b = q.data.branch)

theorem GoneTo.refl (p : Proof) : p.GoneTo p := ⟨p.branch, rfl, .inl rfl⟩

theorem goneTo_place (p : Proof) (k : Option Nat) (f : Fault) :
    p.GoneTo (exec (match k.bind p.tree.place? with
      | none => throw f
      | some n => set { p with branch := n.data.branch } : Work Unit) p).2 := by
  cases hplace : k.bind p.tree.place? with
  | none => exact .refl p
  | some n =>
    obtain ⟨i, -, hi⟩ := Option.bind_eq_some_iff.1 hplace
    exact ⟨n.data.branch, rfl, .inr ⟨n, List.mem_of_getElem? hi, rfl⟩⟩

/-- **Going to a branch** by its name or to a side changes nothing else. -/
theorem goneTo_jump (new : String) (p : Proof) : p.GoneTo (exec (jump new) p).2 := by
  simp only [jump, exec_bind, exec_get]
  by_cases hhere : Text.capitalize new = p.branch
  · rw [if_pos hhere]
    exact .refl p
  rw [if_neg hhere]
  by_cases hside : Text.upper new = "LEFT" ∨ Text.upper new = "RIGHT"
  · rw [if_pos hside]
    simp only [exec_bind, exec_lift]
    cases p.leaf p.branch with
    | error f => exact .refl p
    | ok q =>
      simp only
      cases p.tree.neighbour q.position (Text.upper new) with
      | error f => exact .refl p
      | ok k => exact goneTo_place p k _
  · rw [if_neg hside]
    exact goneTo_place p _ _

/-- **Going to the first open branch** changes nothing else. -/
theorem goneTo_next (p : Proof) : p.GoneTo (exec next p).2 := by
  simp only [next, exec_bind, exec_get]
  cases hopen : p.tree.openLeaves with
  | nil => exact .refl p
  | cons q qs =>
    have hmem : q ∈ p.tree.openLeaves := by rw [hopen]; exact List.mem_cons_self
    exact ⟨q.data.branch, rfl, .inr ⟨q, (List.mem_filter.1 (List.mem_filter.1 hmem).1).1, rfl⟩⟩

theorem jump_frame (new : String) (p : Proof) : ∃ b, (exec (jump new) p).2 = { p with branch := b } :=
  (goneTo_jump new p).imp fun _ => And.left

theorem next_frame (p : Proof) : ∃ b, (exec next p).2 = { p with branch := b } := (goneTo_next p).imp fun _ => And.left

theorem Orderly.goTo (h : Orderly R M st root name start p) (b : String) :
    Orderly R M st root name start { p with branch := b } :=
  ⟨h.statement, h.built, h.start, h.marked⟩

/-! ## The solver -/

theorem full_of_strict {m : Method} {y : Sentence} {bs : List (List Sentence)}
    (h : e.calculus.strict e.lexer m y = .ok (some bs)) : Full (bs.map (·.map some)) := by
  have := Calculus.strict_full h
  exact ⟨by simpa using this.1, by simpa using this.2⟩

/-- **What can become of a sentence that is taken apart.** Nothing changes; or lines are hung below the leaf of its
branch. Then it ends halfway, before or after the sentence is marked as used on them, or the move is recorded. -/
theorem takeApart_cases (e : Setting) (rule : String) (x : Pending) (p : Proof) :
    (∃ f, exec (takeApart e rule x) p = (.error f, p)) ∨
      ∃ m bs q fs d, Calculus.method? rule = some m ∧ e.calculus.strict e.lexer m x.sentence = .ok (some bs) ∧
        p.Found x.branch q fs d ∧ let made s := node d (growth e p d (bs.map (·.map some)) s)
        ((∃ f, (growthOutcome e p d (bs.map (·.map some)) = .error f ∨
          e.calculus.toNode e.lexer x.sentence = .error f) ∧
            exec (takeApart e rule x) p = (.error f, { p with tree := plug fs (made none) })) ∨
          growthOutcome e p d (bs.map (·.map some)) = .ok () ∧ ∃ s, e.calculus.toNode e.lexer x.sentence = .ok s ∧
            ((∃ f, movedToken e.calculus rule x.sentence = .error f ∧
                exec (takeApart e rule x) p = (.error f, { p with tree := plug fs (made (some s)) })) ∨
              ∃ token, movedToken e.calculus rule x.sentence = .ok token ∧
                exec (takeApart e rule x) p = (.ok (offset fs, offset fs + size (made (some s))), { p with
                  tree := plug fs (made (some s))
                  used := p.used ++ [{ layer := p.tree.nextLayer, branch := x.branch, rule
                                       context := [("sentenceID", .whole x.position), ("tokenID", .whole token)]
                                       decisions := .record [], auto := true }] }))) := by
  generalize hrun : exec (takeApart e rule x) p = r
  unfold takeApart at hrun
  cases hm : Calculus.method? rule with
  | none =>
    rw [hm] at hrun
    exact .inl ⟨_, hrun.symm⟩
  | some m =>
    simp only [hm, exec_bind, exec_lift] at hrun
    rcases hstrict : e.calculus.strict e.lexer m x.sentence with f | _ | bs <;> rw [hstrict] at hrun
    · exact .inl ⟨f, hrun.symm⟩
    · exact .inl ⟨_, hrun.symm⟩
    have hfull := full_of_strict hstrict
    simp only [exec_bind, exec_get, exec_lift] at hrun
    cases hleaf : p.leaf x.branch with
    | error f =>
      rw [hleaf] at hrun
      exact .inl ⟨f, hrun.symm⟩
    | ok q =>
      obtain ⟨fs, d, hfound⟩ := found_of_leaf hleaf
      refine .inr ⟨m, bs, q, fs, d, rfl, hstrict, hfound, ?_⟩
      intro made
      simp only [hleaf, exec_grow_growth (e := e) hfound hfull.2] at hrun
      cases hok : growthOutcome e p d (bs.map (·.map some)) with
      | error f =>
        rw [hok] at hrun
        exact .inl ⟨f, .inl rfl, hrun.symm⟩
      | ok =>
        simp only [hok, Except.map] at hrun
        cases hnode : e.calculus.toNode e.lexer x.sentence with
        | error f =>
          rw [hnode] at hrun
          exact .inl ⟨f, .inr rfl, hrun.symm⟩
        | ok s =>
          have hmark := exec_markUsed_growth hfull.2 hok hfound.position s
          rw [List.length_map] at hmark
          simp only [hnode, hmark] at hrun
          refine .inr ⟨rfl, s, rfl, ?_⟩
          cases htoken : movedToken e.calculus rule x.sentence with
          | error f =>
            rw [htoken] at hrun
            exact .inl ⟨f, rfl, hrun.symm⟩
          | ok token =>
            have hplace := place?_plug fs (made (some s))
            rw [← hfound.position] at hplace
            simp only [htoken, exec_modify, exec_pure] at hrun
            rw [hplace] at hrun
            rw [← hfound.position]
            exact .inr ⟨token, rfl, hrun.symm⟩

/-- what every change keeps that the solver makes to a proof, taking moves back apart: lines are hung below a leaf,
recorded as a move or not, or a leaf is closed -/
structure Endures (e : Setting) (J : Proof → Prop) : Prop where
  lost : ∀ {p b q fs d g} (s : Option Sentence), J p → p.Found b q fs d → (∀ b ∈ g, b ≠ []) →
    J { p with tree := plug fs (node d (growth e p d g s)) }
  move : ∀ {p b q fs d g u} (s : Option Sentence), J p → p.Found b q fs d → Full g → growthOutcome e p d g = .ok () →
    u.layer = p.tree.nextLayer → u.branch = b → u.auto = true →
    J { p with tree := plug fs (node d (growth e p d g s)), used := p.used ++ [u] }
  close : ∀ {p b q fs d v info}, J p → p.Found b q fs d →
    e.calculus.closure ((fs.map (·.data) ++ [d]).map (·.sentence)) d.history = .ok (some (v, info)) →
    J { p with tree := plug fs (node { d with closed := some v } []) }

theorem keeps_checkBranches {J : Proof → Prop} (h : ∀ b, Keeps J (dealClosure e b)) : Keeps J (checkBranches e) :=
  Keeps.get.bind fun _ => (Keeps.forIn fun b _ => h b).bind fun _ => .pure _

/-- the solver first closes what can be closed; then it fails, or rules are tried -/
theorem exec_solve_eq {J : Proof → Prop} (hclose : ∀ b, Keeps J (dealClosure e b)) (hp : J p) :
    ∃ p', J p' ∧ ((∃ f, exec (solve e) p = (.error f, p')) ∨
      ∃ a, p'.agenda e = .ok a ∧ exec (solve e) p = exec (tryRules e a.bound [] Calculus.ruleNames a) p') := by
  have hchecked := keeps_checkBranches hclose p hp
  simp only [solve, exec_bind, exec_get]
  rcases hrun : exec (checkBranches e) p with ⟨f | u, p'⟩ <;> rw [hrun] at hchecked
  · exact ⟨p', hchecked, .inl ⟨f, rfl⟩⟩
  refine ⟨p', hchecked, ?_⟩
  simp only [exec_lift]
  cases hagenda : p'.agenda e with
  | error f => exact .inl ⟨f, rfl⟩
  | ok a => exact .inr ⟨a, rfl, rfl⟩

/-- the moves after the first ones taken back, with the layers that they made -/
def takeBack (start : List UsedRule) (p : Proof) : Proof :=
  { p with used := start, tree := p.tree.prune (layerAfter start) }

/-- what is kept when moves are taken back, as long as those in `base` stay -/
structure Retreats (base : List UsedRule) (J : Proof → Prop) : Prop where
  stays : ∀ {p}, J p → base <+: p.used
  back : ∀ {p start rest}, J p → base <+: start → start ++ rest = p.used → J (p.takeBack start)

theorem Retreats.since {base start : List UsedRule} {J : Proof → Prop} (h : Retreats base J) (hstart : base <+: start) :
    Retreats start fun p => J p ∧ start <+: p.used :=
  ⟨And.right, fun hp hmore hused => ⟨h.back hp.1 (hstart.trans hmore) hused, hmore⟩⟩

namespace Endures

variable {J : Proof → Prop} {base : List UsedRule}

theorem since (h : Endures e J) (start : List UsedRule) : Endures e fun p => J p ∧ start <+: p.used where
  lost s hp hfound hg := ⟨h.lost s hp.1 hfound hg, hp.2⟩
  move s hp hfound hg hok hlayer hbranch hauto :=
    ⟨h.move s hp.1 hfound hg hok hlayer hbranch hauto, hp.2.trans (List.prefix_append _ _)⟩
  close hp hfound hclosure := ⟨h.close hp.1 hfound hclosure, hp.2⟩

theorem dealClosure (h : Endures e J) (b : String) : Keeps J (dealClosure e b) := keeps_closing h.close

/-- **A sentence taken apart** keeps what the changes keep, also if it ends halfway. -/
theorem takeApart (h : Endures e J) (rule : String) (x : Pending) : Keeps J (takeApart e rule x) := by
  intro p hp
  rcases takeApart_cases e rule x p with ⟨f, hrun⟩ | ⟨m, bs, q, fs, d, -, hstrict, hfound, hcases⟩
  · rw [hrun]
    exact hp
  have hfull := full_of_strict hstrict
  rcases hcases with ⟨f, -, hrun⟩ | ⟨hok, s, -, ⟨f, -, hrun⟩ | ⟨token, -, hrun⟩⟩ <;> rw [hrun]
  · exact h.lost none hp hfound hfull.2
  · exact h.lost (some s) hp hfound hfull.2
  · exact h.move (some s) hp hfound hfull hok rfl rfl rfl

theorem advance (h : Endures e J) (rule : String) (x : Pending) (closed : List String) (a : Agenda) :
    Keeps J (advance e rule x closed a) := by
  refine (h.takeApart rule x).bind fun ⟨top, stop⟩ => Keeps.get.bind fun p => ?_
  refine (Keeps.foldlM (fun closed q _ => ?_) closed).bind fun closed => Keeps.get.bind fun p =>
    (Keeps.lift _).bind fun _ => .pure _
  refine (h.dealClosure q.data.branch).bind fun r => ?_
  cases r <;> exact .pure _

theorem exhaust (h : Endures e J) (rule : String) (fuel : Nat) (closed : List String) (a : Agenda) :
    Keeps J (exhaust e rule fuel closed a) := by
  induction fuel generalizing closed a with
  | zero => exact .pure _
  | succ fuel ih =>
    rw [Proof.exhaust]
    split
    · exact .pure _
    · exact .ite (ih _ _) ((h.advance rule _ _ _).bind fun ⟨closed, a⟩ => ih closed a)

theorem saturate (h : Endures e J) (bound : Nat) (rules : List String) (fuel : Nat) (a : Agenda) :
    Keeps J (saturate e bound rules fuel a) := by
  induction fuel generalizing a with
  | zero => exact .pure _
  | succ fuel ih =>
    rw [Proof.saturate]
    refine .ite (.pure _) ((Keeps.foldlM (fun a r _ => ?_) a).bind fun a => Keeps.get.bind fun p =>
      .ite (.pure _) (ih a))
    exact .ite (.pure _) (h.exhaust r bound [] a)

/-- **Rules that are tried and not given up** keep what the changes keep, whether they
close the proof or end halfway. -/
theorem tryRules_of_ne (h : Endures e J) {bound : Nat} (tried rest : List String) (a : Agenda) (hp : J p)
    (hne : (exec (tryRules e bound tried rest a) p).1 ≠ .ok false) : J (exec (tryRules e bound tried rest a) p).2 := by
  induction rest generalizing p tried a with
  | nil => exact hp
  | cons rule rest ih =>
    have hsat := h.saturate bound (tried ++ [rule]) bound a p hp
    simp only [Proof.tryRules, exec_bind, exec_get] at hne ⊢
    rcases hrun : exec (Proof.saturate e bound (tried ++ [rule]) bound a) p with ⟨f | ⟨done, a'⟩, p'⟩ <;>
      rw [hrun] at hsat hne
    · exact hsat
    cases done with
    | true => exact hsat
    | false =>
      simp only [Bool.false_eq_true, if_false, exec_bind] at hne ⊢
      have hrest := ih (tried ++ [rule]) a' hsat
      rcases hexec : exec (Proof.tryRules e bound (tried ++ [rule]) rest a') p' with ⟨f | _ | _, p''⟩ <;>
        rw [hexec] at hrest hne
      · exact hrest (by simp)
      · -- what is given up is taken back
        exact absurd rfl hne
      · exact hrest (by simp)

/-- **Rules that are tried and given up**: what they did is taken back, layer by layer. -/
theorem tryRules (h : Endures e J) (hback : Retreats base J) (bound : Nat) (tried rest : List String) (a : Agenda) :
    Keeps J (tryRules e bound tried rest a) := by
  induction rest generalizing J base tried a with
  | nil => exact .pure _
  | cons rule rest ih =>
    refine Keeps.get_bind fun p hp => ?_
    -- from here on, what was used up to now stays
    have hsince := h.since p.used
    have hstays := hback.since (hback.stays hp)
    refine ((Keeps.bind (hsince.saturate bound _ bound a) fun ⟨done, a⟩ => ?_ : Keeps _ _) p ⟨hp, List.prefix_rfl⟩).1
    refine .ite (.pure _) ((ih hsince hstays (tried ++ [rule]) a).bind fun done => .ite (.pure _) ?_)
    refine Keeps.bind (.change fun q hq => ?_) fun _ => .pure _
    obtain ⟨more, hmore⟩ := hq.2
    exact hstays.back hq List.prefix_rfl hmore

/-- **A solver that does not give up** keeps what its changes keep. -/
theorem solve_of_ne (h : Endures e J) (hp : J p) (hne : (exec (solve e) p).1 ≠ .ok false) : J (exec (solve e) p).2 := by
  obtain ⟨p', hp', ⟨f, hrun⟩ | ⟨a, -, hrun⟩⟩ := exec_solve_eq h.dealClosure hp <;> rw [hrun] at hne ⊢
  · exact hp'
  · exact h.tryRules_of_ne _ _ _ hp' hne

/-- **The solver** keeps what its changes keep. -/
theorem solve (h : Endures e J) (hback : Retreats base J) : Keeps J (solve e) := by
  refine (keeps_checkBranches h.dealClosure).bind fun _ => Keeps.get.bind fun p => ?_
  exact (Keeps.lift _).bind fun a => h.tryRules hback _ _ _ a

end Endures

/-- what the solver does on a branch is a move of the kind that proofs are built by -/
def SolvesBy (R : ProofTree → UsedRule → ProofTree → Prop) : Prop :=
  ∀ {t : ProofTree} {u : UsedRule} {t' : ProofTree}, u.auto = true → u.branch ∈ t.branchNames → R t u t'

theorem Found.mem_branchNames (h : p.Found b q fs d) : b ∈ p.tree.branchNames := by
  rw [branchNames_eq, h.tree, ← h.branch]
  exact List.mem_map_of_mem (strand_mem_plug fs d)

/-- **Changes of the solver** keep a proof in order. -/
theorem endures_orderly (hR : SolvesBy R) (hM : ClosesBy M e.calculus) :
    Endures e (Orderly R M st root name start) where
  lost s hp hfound hg := hp.lost hfound.tree hg s
  move s hp hfound hg hok hlayer hbranch hauto := by
    refine hp.move hfound.tree hg hok hlayer (hR hauto ?_)
    rw [branchNames_unmarked, hbranch]
    exact hfound.mem_branchNames
  close hp hfound hclosure := hp.close hfound.tree (hM _ _ _ _ hclosure)

theorem retreats_orderly : Retreats start (Orderly R M st root name start) where
  stays hp := hp.start
  back {p more rest} hp hmore hused := by
    have hp' : Orderly R M st root name more p := ⟨hp.statement, hp.built, ⟨rest, hused⟩, hp.marked⟩
    have hback := hp'.takeBack hused
    exact ⟨hback.statement, hback.built, hmore, hback.marked⟩

/-- **The solver** keeps a proof in order. -/
theorem keeps_solve (hR : SolvesBy R) (hM : ClosesBy M e.calculus) : Keeps (Orderly R M st root name start) (solve e) :=
  (endures_orderly hR hM).solve retreats_orderly

end Orderly

end Proof

end TableauTutor

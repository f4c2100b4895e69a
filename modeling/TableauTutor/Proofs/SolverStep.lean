import TableauTutor.Proofs.Agenda
import TableauTutor.Proofs.Closure
import TableauTutor.Proofs.Growth

/-!
One step of the solver. A sentence that waits on an agenda is taken apart: lines of new nodes are hung below the leaf of
its branch, the new leaves are closed where they can be, and the agenda is brought up to date.

- `exec_dealAll_lines`: new leaves are closed according to the closure check.
- `exec_advance`: the whole step.
-/

namespace TableauTutor

/-! ## Closing a leaf -/

/-- what the closure check says about a branch -/
def Calculus.verdict (c : Calculus) (ss : List Sentence) (used : History) : Option Closing :=
  match c.closure ss used with
  | .ok r => r.map (·.1)
  | .error _ => none

/-- the node with the mark of a closing, if there is one -/
def Node.close (r : Option Closing) (n : Node) : Node :=
  match r with
  | none => n
  | some c => { n with closed := some c }

namespace Node

variable (r : Option Closing) (n : Node)

@[simp] theorem close_branch : (n.close r).branch = n.branch := by cases r <;> rfl

@[simp] theorem close_sentence : (n.close r).sentence = n.sentence := by cases r <;> rfl

@[simp] theorem close_history : (n.close r).history = n.history := by cases r <;> rfl

@[simp] theorem close_layer : (n.close r).layer = n.layer := by cases r <;> rfl

@[simp] theorem close_close : (n.close r).close r = n.close r := by cases r <;> rfl

theorem close_closed (h : n.closed = none) : (n.close r).closed = r := by
  cases r with
  | none => exact h
  | some c => rfl

end Node

namespace ProofTree

variable {fs : List Frame} {d : Node}

theorem line_eq_plug (above : List Node) (l : Node) :
    line (above ++ [l]) = [plug (above.map fun n => ⟨n, [], []⟩) (node l [])] := by
  induction above with
  | nil => rfl
  | cons n above ih => simp [line, plug, ih]

/-- the leaf of one of several lines below a node -/
theorem plug_lines (fs : List Frame) (d : Node) (left right : List (List Node)) (above : List Node) (l : Node) :
    plug fs (node d (lines (left ++ (above ++ [l]) :: right))) =
      plug (fs ++ ⟨d, lines left, lines right⟩ :: above.map fun n => ⟨n, [], []⟩) (node l []) := by
  simp [plug_append, plug, line_eq_plug]

theorem length_trailFrom (k : Nat) (fs : List Frame) : (trailFrom k fs).length = fs.length := by
  have := congrArg List.length (trailFrom_nodes k fs)
  simpa using this

/-- the places of lines: their nodes, with how far down they are -/
theorem places_lines (k : Nat) (above : List (Node × Nat)) (before : List ProofTree) (nss : List (List Node)) :
    (placesAll k above before (lines nss)).map (fun q => (q.data, q.depth)) =
      nss.flatMap fun ns => ns.zipIdx above.length := by
  have hline (ns : List Node) (ts : List ProofTree) (k : Nat) (above : List (Node × Nat)) (before : List ProofTree) :
      (placesAll k above before (line ns ++ ts)).map (fun q => (q.data, q.depth)) = ns.zipIdx above.length ++
        (placesAll (k + sizeAll (line ns)) above (before ++ line ns) ts).map (fun q => (q.data, q.depth)) := by
    induction ns generalizing k above before ts with
    | nil => simp [line, sizeAll]
    | cons n ns ih =>
      have hrest := ih [] (k + 1) (above ++ [(n, k)]) []
      simp only [List.append_nil, placesAll, List.map_nil, List.length_append, List.length_singleton] at hrest
      simp only [line, List.cons_append, List.nil_append, placesAll, placesFrom, List.map_cons, List.map_append, hrest,
        List.zipIdx_cons, sizeAll, Nat.add_zero]
      rfl
  induction nss generalizing k before with
  | nil => rfl
  | cons ns nss ih => rw [lines_cons, hline, ih, List.flatMap_cons]

theorem size_lines (nss : List (List Node)) : sizeAll (lines nss) = (nss.map List.length).sum := by
  have hline (ns : List Node) : sizeAll (line ns) = ns.length := by
    induction ns with
    | nil => rfl
    | cons n ns ih =>
      simp only [line, sizeAll, size, ih, List.length_cons]
      omega
  induction nss with
  | nil => rfl
  | cons ns nss ih => simp [hline, ih]

/-! ## Trees of a calculus -/

/-- what every move keeps: leaves have different names, and every node says something -/
structure Sane (c : Calculus) (t : ProofTree) : Prop where
  names : ((strands t).map (·.leaf.branch)).Nodup
  means : ∀ s ∈ strands t, ∀ n ∈ s.path, ∃ a, c.Means n.sentence a

namespace Sane

variable {c : Calculus}

theorem means_sentences {t : ProofTree} (h : Sane c t) {s : Strand} (hs : s ∈ strands t) :
    ∀ u ∈ s.sentences, ∃ a, c.Means u a :=
  List.forall_mem_map.2 (h.means s hs)

theorem means_plug (h : Sane c (plug fs (node d []))) : ∀ n ∈ fs.map (·.data) ++ [d], ∃ a, c.Means n.sentence a :=
  h.means _ (strand_mem_plug fs d)

theorem root {s : Sentence} (h : ∃ a, c.Means s a) (name : String) : Sane c (.root s name) := by
  have hstrands : strands (.root s name) = [⟨[], { sentence := s, branch := name }⟩] := rfl
  exact ⟨by simp [hstrands], by simpa [hstrands, Strand.path] using h⟩

theorem close (h : Sane c (plug fs (node d []))) (v : Option Closing) : Sane c (plug fs (node (d.close v) [])) := by
  obtain ⟨left, right, hold, hnew⟩ := strands_replaced fs d (d.close v)
  have hmeans := h.means_plug
  constructor
  · have := h.names
    rw [hold] at this
    simpa [hnew] using this
  · intro s hs n hn
    simp only [hnew, List.mem_append, List.mem_cons] at hs
    rcases hs with hs | rfl | hs
    · exact h.means s (by simp [hold, hs]) n hn
    · rcases List.mem_append.1 hn with hn | hn
      · exact hmeans n (List.mem_append_left _ hn)
      · obtain rfl := List.mem_singleton.1 hn
        simpa using hmeans d (List.mem_append_right _ List.mem_cons_self)
    · exact h.means s (by simp [hold, hs]) n hn

/-- **Growth keeps a tree sane**: new leaves get names that are free, one of them keeps the name of the old leaf. -/
theorem grow (h : Sane c (plug fs (node d []))) (level k : Int) {make : String → Sentence → Node}
    (hmake : ∀ n s, (make n s).branch = n ∧ (make n s).sentence = s) {bs : List (List Sentence)}
    (hbs : ∀ b ∈ bs, ∀ s ∈ b, ∃ a, c.Means s a) :
    Sane c (plug fs (node d (sprouts make ((plug fs (node d [])).namesFor level d.branch k) bs))) := by
  generalize hcs : sprouts make ((plug fs (node d [])).namesFor level d.branch k) bs = cs
  by_cases hne : cs = []
  · rwa [hne]
  obtain ⟨left, right, hold, hnew⟩ := strands_grown fs d hne
  constructor
  · have hown : d.branch ∈ (plug fs (node d [])).branchNames := by simp [branchNames_eq, hold]
    obtain ⟨hnodup, more, hmore, hfree⟩ := namesFor_spec _ level hown k
    have hsub := leafNames_sprouts (fun n s => (hmake n s).1) ((plug fs (node d [])).namesFor level d.branch k) bs
    have hnames := h.names
    rw [hcs, hmore] at hsub
    rw [hmore] at hnodup
    simp only [branchNames_eq, hold] at hfree
    rw [hold] at hnames
    simp only [hnew, List.map_append, List.map_map, Function.comp_def, Strand.below_leaf]
    refine List.Nodup.sublist (((List.Sublist.refl _).append hsub).append (List.Sublist.refl _)) ?_
    simp only [List.map_append, List.map_cons, List.nodup_append, List.nodup_cons, List.mem_append,
      List.mem_cons] at hnames hfree hnodup ⊢
    grind
  · intro s hs n hn
    rcases strand_grown_cases hs with hs | ⟨u, hu, rfl⟩
    · exact h.means s hs n hn
    · rw [Strand.path_below] at hn
      rcases List.mem_append.1 hn with hn | hn
      · exact h.means_plug n hn
      · obtain ⟨name, b, hb, hpath⟩ := path_sprouts (hcs ▸ hu)
        rw [hpath] at hn
        obtain ⟨y, hy, rfl⟩ := List.mem_map.1 hn
        rw [(hmake _ _).2]
        exact hbs b (List.of_mem_zip hb).2 y hy

end Sane

end ProofTree

namespace Proof

open ProofTree Calculus

variable {e : Setting} {p : Proof} {fs : List Frame} {d : Node}

/-- the places below a node -/
theorem placesBetween_plug {cs : List ProofTree} (h : p.tree = plug fs (node d cs)) :
    p.placesBetween (offset fs + 1) (offset fs + size (node d cs)) =
      placesAll (offset fs + 1) (trailFrom 0 fs ++ [(d, offset fs)]) [] cs := by
  obtain ⟨ps, qs, hlen, heq⟩ := placesFrom_plug 0 [] [] fs (node d cs) []
  have hsize := length_placesFrom (offset fs) (trailFrom 0 fs) (siblings [] [] fs).1 (node d cs) (siblings [] [] fs).2
  simp only [Nat.zero_add, List.nil_append] at heq
  rw [placesBetween, h, places, heq, List.append_assoc, List.take_append, hlen, List.take_of_length_le (by omega),
    Nat.add_sub_cancel_left, List.take_append, hsize, Nat.sub_self, List.take_zero, List.append_nil,
    List.take_of_length_le (by omega), List.drop_append, List.drop_of_length_le (by omega), hlen,
    Nat.add_sub_cancel_left, List.nil_append, placesFrom]
  rfl

/-! ## Closing the leaves of lines -/

/-- the closure check never fails where every node says something -/
theorem closure_eq {c : Calculus} {ss : List Sentence} (h : ∀ s ∈ ss, ∃ a, c.Means s a) (used : History) :
    ∃ r, c.closure ss used = .ok r ∧ c.verdict ss used = r.map (·.1) := by
  rcases closure_means h used with ⟨i, j, info, heq, -⟩ | ⟨info, heq, -⟩ | ⟨heq, -⟩ <;>
    exact ⟨_, heq, by rw [verdict, heq]⟩

/-- what the verdict on a branch says about its sentences -/
theorem verdict_means {c : Calculus} {ss : List Sentence} (h : ∀ s ∈ ss, ∃ a, c.Means s a) (used : History) :
    (∃ i j, c.verdict ss used = some (.contradictionOf i j) ∧ c.Contradictory ss) ∨
      (c.verdict ss used = some .emptiness ∧ c.Consistent ss ∧
        ∀ s ∈ ss, ∀ a, c.Means s a → used.contains s = true ∨ a.isLiteral = true) ∨
      (c.verdict ss used = none ∧ ∃ s ∈ ss, ∃ a, c.Means s a ∧ used.contains s = false ∧ a.isLiteral = false) := by
  rcases closure_means h used with ⟨i, j, info, heq, hcontra⟩ | ⟨info, heq, hcons⟩ | ⟨heq, hleft⟩
  · exact .inl ⟨i, j, by rw [verdict, heq]; rfl, hcontra⟩
  · exact .inr (.inl ⟨by rw [verdict, heq]; rfl, hcons⟩)
  · exact .inr (.inr ⟨by rw [verdict, heq]; rfl, hleft⟩)

/-- closing changes at most the mark of a leaf -/
theorem exec_dealClosure_plug (hsane : p.tree.Sane e.calculus) (ht : p.tree = plug fs (node d [])) :
    let v := e.calculus.verdict ((fs.map (·.data) ++ [d]).map (·.sentence)) d.history
    ∃ r, exec (dealClosure e d.branch) p = (.ok r, { p with tree := plug fs (node (d.close v) []) }) ∧
    r.isSome = v.isSome := by
  obtain ⟨q, hq⟩ := found_plug hsane.names ht
  rw [ht] at hsane
  have hmeans : ∀ s ∈ (fs.map (·.data) ++ [d]).map (·.sentence), ∃ a, e.calculus.Means s a :=
    List.forall_mem_map.2 hsane.means_plug
  obtain ⟨r, hr, hv⟩ := closure_eq hmeans d.history
  rw [exec_dealClosure hq, hr, hv]
  cases r with
  | none => exact ⟨none, by simp [Node.close, ← ht], rfl⟩
  | some r => exact ⟨_, rfl, rfl⟩

/-- the verdict on the branch that goes down a line -/
def lineVerdict (c : Calculus) (above ns : List Node) : Option Closing :=
  c.verdict ((above ++ ns).map (·.sentence)) ((ns.getLast?.map (·.history)).getD {})

/-- a line with its last node closed, if there is reason to -/
def closeLine (c : Calculus) (above ns : List Node) : List Node :=
  ns.dropLast ++ (ns.getLast?.map (Node.close (lineVerdict c above ns))).toList

theorem closeLine_append (c : Calculus) (above ns : List Node) (l : Node) :
    closeLine c above (ns ++ [l]) = ns ++ [l.close (lineVerdict c above (ns ++ [l]))] := by
  simp [closeLine]

/-- branches closed one after another where they can be; the names of those that were -/
def dealAll (e : Setting) (closed bs : List String) : Work (List String) :=
  bs.foldlM (fun closed b => do
    match ← dealClosure e b with
    | some _ => return closed ++ [b]
    | none => return closed) closed

theorem exec_dealAll_cons {p' : Proof} {b : String} {r : Option (Closing × String)}
    (h : exec (dealClosure e b) p = (.ok r, p')) (closed bs : List String) :
    exec (dealAll e closed (b :: bs)) p = exec (dealAll e (closed ++ if r.isSome then [b] else []) bs) p' := by
  rw [dealAll, List.foldlM_cons, exec_bind, exec_bind, h]
  cases r <;> simp [dealAll]

theorem lineVerdict_close (c : Calculus) (above ns : List Node) (l : Node) (v : Option Closing) :
    lineVerdict c above (ns ++ [l.close v]) = lineVerdict c above (ns ++ [l]) := by
  simp [lineVerdict]

/-- the branch of a line is closed, as often as it is tried -/
theorem exec_dealAll_line (hsane : p.tree.Sane e.calculus) {left right : List (List Node)} {ns : List Node} {l : Node}
    (ht : p.tree = plug fs (node d (lines (left ++ (ns ++ [l]) :: right)))) {bs : List String} (hne : bs ≠ [])
    (hbs : ∀ b ∈ bs, b = l.branch) (closed : List String) :
    let above := fs.map (·.data) ++ [d]
    let p' := { p with tree := plug fs (node d (lines (left ++ closeLine e.calculus above (ns ++ [l]) :: right))) }
    exec (dealAll e closed bs) p =
      (.ok (closed ++ if (lineVerdict e.calculus above (ns ++ [l])).isSome then bs else []), p') ∧
      p'.tree.Sane e.calculus := by
  intro above p'
  induction bs generalizing p l closed with
  | nil => exact absurd rfl hne
  | cons b bs ih =>
    obtain ⟨rfl, hrest⟩ := List.forall_mem_cons.1 hbs
    rw [plug_lines] at ht
    -- one call closes the branch; the others find the same verdict
    obtain ⟨r, hexec, hr⟩ := exec_dealClosure_plug hsane ht
    have hsane' := (ht ▸ hsane).close (lineVerdict e.calculus above (ns ++ [l]))
    have hverdict : e.calculus.verdict (((fs ++ ⟨d, lines left, lines right⟩ :: ns.map fun n =>
      (⟨n, [], []⟩ : Frame)).map
        (·.data) ++ [l]).map (·.sentence)) l.history = lineVerdict e.calculus above (ns ++ [l]) := by
      simp [lineVerdict, above, Function.comp_def]
    rw [hverdict] at hexec hr
    rw [← plug_lines] at hexec hsane'
    rw [← closeLine_append] at hexec hsane'
    rw [exec_dealAll_cons hexec, hr]
    cases bs with
    | nil => exact ⟨rfl, hsane'⟩
    | cons b bs =>
      have hagain := ih (p := { p with tree := _ }) (l := l.close (lineVerdict e.calculus above (ns ++ [l])))
        hsane' (by simp only [closeLine_append]) (by simp) (by simpa using hrest)
        (closed ++ if (lineVerdict e.calculus above (ns ++ [l])).isSome then [l.branch] else [])
      simp only [closeLine_append, lineVerdict_close, Node.close_close] at hagain
      simp only [p', closeLine_append]
      refine ⟨hagain.1.trans ?_, hagain.2⟩
      split <;> simp

/-- **The leaves of lines are closed** where they can be, each by the verdict on its branch. -/
theorem exec_dealAll_lines (hsane : p.tree.Sane e.calculus) {left nss : List (List Node)}
    (ht : p.tree = plug fs (node d (lines (left ++ nss)))) (hne : ∀ ns ∈ nss, ns ≠ [])
    (hbranch : ∀ ns ∈ nss, ∀ n ∈ ns, ∀ m ∈ ns, n.branch = m.branch) (closed : List String) :
    let above := fs.map (·.data) ++ [d]
    let p' := { p with tree := plug fs (node d (lines (left ++ nss.map (closeLine e.calculus above)))) }
    exec (dealAll e closed (nss.flatMap fun ns => ns.map (·.branch))) p =
      (.ok (closed ++ nss.flatMap fun ns =>
        if (lineVerdict e.calculus above ns).isSome then ns.map (·.branch) else []), p') ∧ p'.tree.Sane e.calculus := by
  intro above p'
  induction nss generalizing p left closed with
  | nil =>
    have hp : p = p' := by simp only [p', List.map_nil, ← ht]
    exact ⟨by simp [dealAll, ← hp], hp ▸ hsane⟩
  | cons ns nss ih =>
    obtain ⟨hns, hne'⟩ := List.forall_mem_cons.1 hne
    obtain ⟨hb, hbranch'⟩ := List.forall_mem_cons.1 hbranch
    obtain ⟨ms, l, rfl⟩ : ∃ ms l, ns = ms ++ [l] := ⟨_, _, (List.dropLast_concat_getLast hns).symm⟩
    have hnames : ∀ b ∈ (ms ++ [l]).map (·.branch), b = l.branch := by
      intro b hb'
      obtain ⟨n, hn, rfl⟩ := List.mem_map.1 hb'
      exact hb n hn l (by simp)
    obtain ⟨hexec, hsane'⟩ := exec_dealAll_line hsane ht (by simp) hnames closed
    have ht' : plug fs (node d (lines (left ++ closeLine e.calculus above (ms ++ [l]) :: nss))) =
        plug fs (node d (lines ((left ++ [closeLine e.calculus above (ms ++ [l])]) ++ nss))) := by simp
    have hrest := ih hsane' ht' hne' hbranch'
      (closed ++ if (lineVerdict e.calculus above (ms ++ [l])).isSome then (ms ++ [l]).map (·.branch) else [])
    simp only [List.append_assoc, List.singleton_append] at hrest
    rw [List.flatMap_cons, dealAll, List.foldlM_append, ← dealAll, exec_bind, hexec]
    exact hrest

/-! ## Taking a sentence apart -/

variable {rule : String} {x : Pending}

/-- an entry that stands for a node of a branch that the rule takes apart -/
def Valid (e : Setting) (p : Proof) (rule : String) (x : Pending) : Prop :=
  ∃ s ∈ strands p.tree, s.leaf.branch = x.branch ∧ ∃ n a, s.path[x.position]? = some n ∧
    e.calculus.toPlain e.lexer n.sentence = .ok x.sentence ∧ e.calculus.Means n.sentence a ∧ a.rule? = some rule

/-- what a rule makes of the node that an entry stands for: the leaf of the branch, the node and what it says, and the
branches that it falls into -/
structure Taking (e : Setting) (p : Proof) (rule : String) (x : Pending) (fs : List Frame) (d n : Node)
    (a : Proposition) (m : Method) (ps : List (List Proposition)) (bs : List (List Sentence)) : Prop where
  tree : p.tree = plug fs (node d [])
  branch : d.branch = x.branch
  node : (fs.map (·.data) ++ [d])[x.position]? = some n
  plain : e.calculus.toPlain e.lexer n.sentence = .ok x.sentence
  means : e.calculus.Means n.sentence a
  method : (rule, m) ∈ ruleMethods
  expand : m.expand a = some ps
  strict : e.calculus.strict e.lexer m n.sentence = .ok (some bs)
  branches : e.calculus.BranchesMean bs ps

theorem Valid.taking (hx : e.HasLexer) (h : Valid e p rule x) :
    ∃ fs d n a m ps bs, Taking e p rule x fs d n a m ps bs := by
  obtain ⟨s, hs, hb, n, a, hn, hplain, hmeans, hrule⟩ := h
  obtain ⟨fs, ht, habove⟩ := exists_frames hs
  have hmem := rule?_mem hrule
  rw [← ruleMethods_names] at hmem
  obtain ⟨⟨r, m⟩, hm, rfl⟩ := List.mem_map.1 hmem
  obtain ⟨r, hstrict, hrel⟩ := strict_means hx m hmeans
  have hsome := (expand_isSome hm a).2 hrule
  generalize hps : m.expand a = ps at hrel hsome
  cases hrel with
  | none => simp at hsome
  | @some bs ps hrel =>
    exact ⟨fs, s.leaf, n, a, m, ps, bs, ht, hb, by rw [habove]; exact hn, hplain, hmeans, hm, hps, hstrict, hrel⟩

/-- the solver knows which symbol it worked on -/
theorem movedToken_reads {s : Sentence} {a : Proposition} (c : Calculus) (h : s.Reads a) (hrule : a.rule? = some rule) :
    ∃ i, movedToken c rule s = .ok i := by
  rcases a with y | (y | a | ⟨o, a, b⟩) | ⟨o, a, b⟩ <;> simp only [Proposition.rule?, reduceCtorEq,
    Option.some.injEq] at hrule
  · obtain ⟨y, n, t, -, -, -, -, hmain, -⟩ := h.neg_eq
    have hstart : Text.startsWith "false" rule = false := by rw [← hrule]; decide
    exact ⟨_, by simp only [movedToken, hstart, hmain, ok_bind]; rfl⟩
  · obtain ⟨y, n, t, -, -, -, ht, -, hparts⟩ := h.neg_eq
    obtain ⟨z, k, l, u, v, -, -, -, -, -, hmain, -⟩ := ht.join_eq
    have hstart : Text.startsWith "false" rule = true := by rw [← hrule]; cases o <;> decide
    exact ⟨_, by simp only [movedToken, hstart, hparts, hmain, if_true, ok_bind]; rfl⟩
  · obtain ⟨z, k, l, u, v, -, -, -, -, -, hmain, -⟩ := h.join_eq
    have hstart : Text.startsWith "false" rule = false := by rw [← hrule]; cases o <;> decide
    exact ⟨_, by simp only [movedToken, hstart, hmain, ok_bind]; rfl⟩

section Taking

variable {n : Node} {a : Proposition} {m : Method} {ps : List (List Proposition)} {bs : List (List Sentence)}

theorem Taking.rule?_eq (h : Taking e p rule x fs d n a m ps bs) : a.rule? = some rule := by
  rw [← expand_isSome h.method, h.expand]
  rfl

/-- the branches have the shape of what the rule makes: one, or two with one sentence each -/
theorem Taking.shape (h : Taking e p rule x fs d n a m ps bs) : (∃ b, b ≠ [] ∧ bs = [b]) ∨ ∃ l r, bs = [[l], [r]] := by
  have hbranches := h.branches
  rcases expand_shape h.expand with ⟨b, hb, rfl⟩ | ⟨l, r, rfl⟩
  · obtain ⟨b', _, hb', hnil, rfl⟩ := List.forall₂_cons_right_iff.1 hbranches
    obtain rfl := List.forall₂_nil_right_iff.1 hnil
    refine .inl ⟨b', ?_, rfl⟩
    rintro rfl
    exact hb (List.forall₂_nil_left_iff.1 hb')
  · obtain ⟨b₁, _, h₁, htail, rfl⟩ := List.forall₂_cons_right_iff.1 hbranches
    obtain ⟨b₂, _, h₂, hnil, rfl⟩ := List.forall₂_cons_right_iff.1 htail
    obtain ⟨l', _, -, hl, rfl⟩ := List.forall₂_cons_right_iff.1 h₁
    obtain ⟨r', _, -, hr, rfl⟩ := List.forall₂_cons_right_iff.1 h₂
    obtain rfl := List.forall₂_nil_right_iff.1 hl
    obtain rfl := List.forall₂_nil_right_iff.1 hr
    obtain rfl := List.forall₂_nil_right_iff.1 hnil
    exact .inr ⟨l', r', rfl⟩

theorem Taking.ne_nil (h : Taking e p rule x fs d n a m ps bs) : ∀ b ∈ bs, b ≠ [] := by
  rcases h.shape with ⟨b, hb, rfl⟩ | ⟨l, r, rfl⟩
  · simpa using hb
  · simp

/-- the record of a move of the solver -/
def solverMove (p : Proof) (rule : String) (x : Pending) (token : Int) : UsedRule :=
  { layer := p.tree.nextLayer, branch := x.branch, rule
    context := [("sentenceID", .whole x.position), ("tokenID", .whole token)], decisions := .record [], auto := true }

/-- the nodes of the lines that a move of the solver makes -/
def newLines (p : Proof) (d n : Node) (names : List String) (bs : List (List Sentence)) : List (List Node) :=
  (names.zip bs).map fun nb => nb.2.map fun s => (p.newNode d nb.1 s).use n.sentence

theorem mem_newLines {names : List String} {ns : List Node} (h : ns ∈ p.newLines d n names bs) :
    ∃ name b, (name, b) ∈ names.zip bs ∧ ns = b.map fun s => (p.newNode d name s).use n.sentence := by
  obtain ⟨⟨name, b⟩, hmem, rfl⟩ := List.mem_map.1 h
  exact ⟨name, b, hmem, rfl⟩

/-- **Taking a sentence apart** hangs a line for each branch below the leaf; it fails only
if there are not enough names. -/
theorem exec_takeApart (hsane : p.tree.Sane e.calculus) (hx : e.HasLexer)
    (h : Taking e p rule x fs d n a m ps bs) :
    let names := p.tree.namesFor e.accessibility x.branch bs.length
    (names.length < bs.length ∧ exec (takeApart e rule x) p = (.error (.outOfRange "no branch name is left"),
      { p with tree := plug fs (node d (sprouts (p.newNode d) names bs)) })) ∨
    (bs.length ≤ names.length ∧ ∃ token,
      let made := node d (lines (p.newLines d n names bs))
      exec (takeApart e rule x) p = (.ok (offset fs, offset fs + size made),
        { p with tree := plug fs made, used := p.used ++ [p.solverMove rule x token] })) := by
  intro names
  obtain ⟨q, hq⟩ := found_plug hsane.names h.tree
  rw [h.branch] at hq
  obtain ⟨plain, hplain, hread, hnode⟩ := toPlain_reads hx h.means
  obtain rfl : plain = x.sentence := Except.ok.inj (hplain.symm.trans h.plain)
  have hmethod := method?_of_mem h.method
  -- the rule is used on the formula without its sign
  have hstrict : e.calculus.strict e.lexer m x.sentence = .ok (some bs) := by
    rw [← h.strict, Calculus.strict, Calculus.strict, toPlain_plain e.lexer hread, h.plain]
  obtain ⟨token, htoken⟩ := movedToken_reads e.calculus hread h.rule?_eq
  have hg : ∀ b ∈ bs.map (·.map some), b ≠ [] := by
    intro b hb
    obtain ⟨b', hb', rfl⟩ := List.mem_map.1 hb
    simpa using h.ne_nil b' hb'
  have hgrow := exec_grow (e := e) hq hg
  simp only [List.length_map, sprouts, zip_hung] at hgrow
  rw [← sprouts] at hgrow
  simp only [takeApart, hmethod, exec_bind, exec_lift, hstrict, exec_get, hq.leaf, hgrow]
  rcases @branchTrees_outcome (p.newNode d) names _ hg with ⟨hok, hlen, -⟩ | ⟨herr, hlen⟩ | ⟨-, b, hb, hnone⟩
  · have hlen : bs.length ≤ names.length := by simpa using hlen
    refine .inr ⟨hlen, token, ?_⟩
    have hmark := exec_markUsed (p := { p with tree := plug fs (node d (sprouts (p.newNode d) names bs)) })
      rfl n.sentence
    rw [length_sprouts _ h.ne_nil hlen, useAll_sprouts] at hmark
    change _ = (_, { p with tree := plug fs (node d (lines (p.newLines d n names bs))) }) at hmark
    have hplace := place?_plug fs (node d (lines (p.newLines d n names bs)))
    simp only [names] at hok hmark hplace
    simp only [hok, Except.map, hnode, hmark, htoken, exec_modify, hplace, Option.map_some, Option.getD_some, exec_pure,
      hq.position]
    rfl
  · refine .inl ⟨by simpa using hlen, ?_⟩
    simp only [names] at herr
    simp only [herr, Except.map]
    rfl
  · obtain ⟨b', -, rfl⟩ := List.mem_map.1 hb
    simp at hnone

/-! ## One step -/

/-- the entries of a line whose nodes start that far down -/
def lineEntries (e : Setting) (k : Nat) (ns : List Node) : List (String × Pending) :=
  (ns.zipIdx k).flatMap fun (n, i) => if n.closed.isSome then [] else (entryFor e n.sentence n.branch i).toList

theorem newEntries_lines (k : Nat) (above : List (Node × Nat)) (nss : List (List Node)) :
    newEntries e (placesAll k above [] (lines nss)) = nss.flatMap (lineEntries e above.length) := by
  have hplaces := places_lines k above [] nss
  have hmap : newEntries e (placesAll k above [] (lines nss)) =
      ((placesAll k above [] (lines nss)).map fun q => (q.data, q.depth)).flatMap fun (n, i) =>
        if n.closed.isSome then [] else (entryFor e n.sentence n.branch i).toList := by
    rw [List.flatMap_map]
    rfl
  rw [hmap, hplaces, List.flatMap_assoc]
  rfl

/-- what does not depend on the mark of a leaf stays as it is when a line is closed -/
theorem map_closeLine {β : Type} {f : Node → β} (hf : ∀ n v, f (Node.close v n) = f n) (c : Calculus)
    (above ns : List Node) : (closeLine c above ns).map f = ns.map f := by
  by_cases h : ns = []
  · simp [closeLine, h]
  · rw [← List.dropLast_concat_getLast h, closeLine_append]
    simp [hf]

theorem size_closeLines (c : Calculus) (above : List Node) (nss : List (List Node)) :
    sizeAll (lines (nss.map (closeLine c above))) = sizeAll (lines nss) := by
  rw [size_lines, size_lines, List.map_map]
  refine congrArg List.sum (List.map_congr_left fun ns _ => ?_)
  simpa using congrArg List.length (map_closeLine (f := fun n => n.branch) (by simp) c above ns)

/-- what the nodes of lines say, they say in their places when the lines are closed -/
theorem means_closeLines {c : Calculus} {nss : List (List Node)} (h : ∀ ns ∈ nss, ∀ k ∈ ns, ∃ a, c.Means k.sentence a)
    (k : Nat) (trail : List (Node × Nat)) (above : List Node) :
    ∀ q ∈ placesAll k trail [] (lines (nss.map (closeLine c above))), ∃ a, c.Means q.data.sentence a := by
  intro q hq
  have hq' := List.mem_map_of_mem (f := fun q => (q.data, q.depth)) hq
  rw [places_lines] at hq'
  obtain ⟨ns', hns', hq'⟩ := List.mem_flatMap.1 hq'
  obtain ⟨ns, hns, rfl⟩ := List.mem_map.1 hns'
  have hsentence : q.data.sentence ∈ (closeLine c above ns).map (·.sentence) :=
    List.mem_map_of_mem ((List.mem_zipIdx hq').2.2 ▸ List.getElem_mem _)
  rw [map_closeLine (by simp)] at hsentence
  obtain ⟨k, hk, heq⟩ := List.mem_map.1 hsentence
  exact heq ▸ h ns hns k hk

/-- the nodes of a new line have its name, also when the line is closed -/
theorem branches_newLines (c : Calculus) (above : List Node) (names : List String) :
    ((p.newLines d n names bs).map (closeLine c above)).map (·.map (·.branch)) =
      (names.zip bs).map fun nb => nb.2.map fun _ => nb.1 := by
  simp only [newLines, List.map_map]
  refine List.map_congr_left fun nb _ => ?_
  simp only [Function.comp_apply, map_closeLine (f := fun n => n.branch) (by simp), List.map_map]
  rfl

theorem spread_nil (a : Agenda) (target : String) : a.spread target [] = a := by
  have hnone (xs : List Pending) : xs.flatMap (fun _ => ([] : List Pending)) = [] := by simp [List.flatMap_eq_nil_iff]
  simp [Agenda.spread, hnone]

/-- the branches of a line and those of its places -/
theorem branches_lines (k : Nat) (above : List (Node × Nat)) (nss : List (List Node)) :
    (placesAll k above [] (lines nss)).map (·.data.branch) = nss.flatMap fun ns => ns.map (·.branch) := by
  have hplaces := congrArg (List.map fun ni : Node × Nat => ni.1.branch) (places_lines k above [] nss)
  rw [List.map_map, List.map_flatMap] at hplaces
  refine hplaces.trans (List.flatMap_congr fun ns _ => ?_)
  have hfst : (ns.zipIdx above.length).map Prod.fst = ns := by simp
  conv_rhs => rw [← hfst, List.map_map]
  rfl

/-- the agenda after the branch of an entry has gone on in the given branches: what waited there waits on all of them -/
theorem spread_target {k : Nat} {above : List (Node × Nat)} {own : String} {more : List String}
    {bs : List (List Sentence)}
    (hshape : (∃ b, b ≠ [] ∧ bs = [b]) ∨ ∃ l r, bs = [[l], [r]]) (hlen : bs.length = (own :: more).length)
    (hnodup : (own :: more).Nodup) (habove : above.getLast?.map (·.1.branch) = some own) {nss : List (List Node)}
    (hnss : nss.map (·.map (·.branch)) = ((own :: more).zip bs).map fun nb => nb.2.map fun _ => nb.1) (a : Agenda) :
    let new := placesAll k above [] (lines nss)
    let branches := (new.map (·.data.branch)).eraseDups
    let target := ((new.getLast?.bind fun q => q.above.getLast?).map (·.1.branch)).getD own
    (if 1 < branches.length then a.spread target (branches.filter (· != target)) else a) = a.spread own more := by
  intro new branches target
  have hbranches : new.map (·.data.branch) = ((own :: more).zip bs).flatMap fun nb => nb.2.map fun _ => nb.1 := by
    rw [branches_lines, List.flatMap_def, hnss, ← List.flatMap_def]
  rcases hshape with ⟨b, hb, rfl⟩ | ⟨l, r, rfl⟩
  · -- one branch: nothing is spread
    obtain rfl : more = [] := by simpa using hlen
    obtain ⟨y, b, rfl⟩ := List.exists_cons_of_ne_nil hb
    have hone : branches = [own] := by
      simp [branches, hbranches, List.replicate_succ, List.eraseDups_cons]
    simp [hone, spread_nil]
  · obtain ⟨own', rfl⟩ : ∃ own', more = [own'] := by
      obtain ⟨m, rfl⟩ := List.length_eq_one_iff.1 (show more.length = 1 by simpa using hlen.symm)
      exact ⟨m, rfl⟩
    have hne : own ≠ own' := by simpa using hnodup
    have htwo : branches = [own, own'] := by simp [branches, hbranches, List.eraseDups_cons, hne.symm]
    -- the last new node hangs below the old leaf
    obtain ⟨n₁, n₂, rfl⟩ : ∃ n₁ n₂, nss = [[n₁], [n₂]] := by
      obtain ⟨ns₁, nss, rfl, h₁, htail⟩ := List.map_eq_cons_iff.1 hnss
      obtain ⟨ns₂, rfl, h₂⟩ := List.map_eq_singleton_iff.1 htail
      obtain ⟨n₁, rfl, -⟩ := List.map_eq_singleton_iff.1 h₁
      obtain ⟨n₂, rfl, -⟩ := List.map_eq_singleton_iff.1 h₂
      exact ⟨n₁, n₂, rfl⟩
    have htarget : target = own := by
      simp [target, new, line, placesAll, placesFrom, habove]
    simp [htwo, htarget, hne.symm]

theorem Taking.branch_means (h : Taking e p rule x fs d n a m ps bs) :
    ∀ b ∈ bs, ∀ s ∈ b, ∃ a, e.calculus.Means s a := fun b hb s hs =>
  nodeForm_iff.1 (nodeForm_branches h.branches b hb s hs)

/-- a new line has nodes, all on one branch, and each says something -/
theorem Taking.newLines_spec (h : Taking e p rule x fs d n a m ps bs) {names : List String} {ns : List Node}
    (hns : ns ∈ p.newLines d n names bs) :
    ns ≠ [] ∧ (∀ k ∈ ns, ∀ m ∈ ns, k.branch = m.branch) ∧ ∀ k ∈ ns, ∃ a, e.calculus.Means k.sentence a := by
  obtain ⟨name, b, hb, rfl⟩ := mem_newLines hns
  have hb := (List.of_mem_zip hb).2
  refine ⟨by simpa using h.ne_nil b hb, by simp [newNode, Node.use], ?_⟩
  simpa [newNode, Node.use] using h.branch_means b hb

/-- a step in terms of its parts -/
theorem exec_advance_of {p₁ p₂ : Proof} {top stop : Nat} {closed closed' : List String} {ag ag' : Agenda}
    (htake : exec (takeApart e rule x) p = (.ok (top, stop), p₁))
    (hdeal : exec (dealAll e closed ((p₁.placesBetween (top + 1) stop).map (·.data.branch))) p₁ = (.ok closed', p₂))
    (henlist :
      let new := p₂.placesBetween (top + 1) stop
      let branches := (new.map (·.data.branch)).eraseDups
      let target := ((new.getLast?.bind fun q => q.above.getLast?).map (·.1.branch)).getD x.branch
      enlist e new (if 1 < branches.length then ag.spread target (branches.filter (· != target)) else ag) = .ok ag') :
    exec (advance e rule x closed ag) p = (.ok (closed', ag'), p₂) := by
  rw [dealAll, List.foldlM_map] at hdeal
  rw [advance, exec_bind_ok htake]
  dsimp only
  rw [exec_bind_ok (exec_get _)]
  refine (exec_bind_ok hdeal).trans ?_
  rw [exec_bind_ok (exec_get _)]
  simp only at henlist
  simp only [exec_bind, exec_lift, henlist, exec_pure]

/-- **One step of the solver.** A line is hung below the leaf for each branch, every line is closed where it can be,
what waited on the branch waits on all new branches, and what can be taken apart in the lines waits too. The step fails
only if there are not enough names. -/
theorem exec_advance (hsane : p.tree.Sane e.calculus) (hx : e.HasLexer)
    (h : Taking e p rule x fs d n a m ps bs) {ag : Agenda} (hag : ag.Keyed) (closed : List String) :
    let names := p.tree.namesFor e.accessibility x.branch bs.length
    let above := fs.map (·.data) ++ [d]
    (names.length < bs.length ∧ exec (advance e rule x closed ag) p = (.error (.outOfRange "no branch name is left"),
      { p with tree := plug fs (node d (sprouts (p.newNode d) names bs)) })) ∨
    (names.length = bs.length ∧ ∃ token,
      let nss := p.newLines d n names bs
      let nss' := nss.map (closeLine e.calculus above)
      let p' := { p with
        tree := plug fs (node d (lines nss')), used := p.used ++ [p.solverMove rule x token] }
      exec (advance e rule x closed ag) p =
        (.ok (closed ++ nss.flatMap fun ns => if (lineVerdict e.calculus above ns).isSome then
          ns.map (·.branch) else [],
          (ag.spread x.branch names.tail).enter (nss'.flatMap (lineEntries e above.length))), p') ∧
      p'.tree.Sane e.calculus) := by
  intro names above
  rcases exec_takeApart hsane hx h with ⟨hlen, htake⟩ | ⟨hlen, token, htake⟩
  · refine .inl ⟨hlen, ?_⟩
    simp only [advance, exec_bind, htake]
    rfl
  have hpos : 0 < bs.length := by rcases h.shape with ⟨b, -, rfl⟩ | ⟨l, r, rfl⟩ <;> simp
  have hlen : names.length = bs.length := Nat.le_antisymm (length_namesFor_le _ _ _ hpos) hlen
  refine .inr ⟨hlen, token, ?_⟩
  intro nss nss' p'
  have hown : x.branch ∈ p.tree.branchNames := by
    rw [branchNames_eq, h.tree, ← h.branch]
    exact List.mem_map.2 ⟨_, strand_mem_plug fs d, rfl⟩
  obtain ⟨hnodup, more, hmore, -⟩ := namesFor_spec p.tree e.accessibility hown bs.length
  -- the lines as they are made
  have hsane₁ : Sane e.calculus (plug fs (node d (lines nss))) := by
    have := (h.tree ▸ hsane).grow e.accessibility bs.length
      (fun name s => ⟨rfl, rfl⟩ : ∀ name s, ((p.newNode d name s).use n.sentence).branch = name ∧
        ((p.newNode d name s).use n.sentence).sentence = s) h.branch_means
    rwa [← h.tree, h.branch] at this
  let p₁ : Proof := { p with tree := plug fs (node d (lines nss)), used := p.used ++ [p.solverMove rule x token] }
  have hmade := placesBetween_plug (p := p₁) rfl
  obtain ⟨hdeal, hsane₂⟩ := exec_dealAll_lines (p := p₁) hsane₁ (rfl : _ = plug fs (node d (lines ([] ++ nss))))
    (fun ns hns => (h.newLines_spec hns).1) (fun ns hns => (h.newLines_spec hns).2.1) closed
  -- the lines as they are after closing
  have hsize : size (node d (lines nss')) = size (node d (lines nss)) := by simp only [size, nss', size_closeLines]
  have hnew := placesBetween_plug (p := p') rfl
  rw [hsize] at hnew
  refine ⟨exec_advance_of htake ?_ ?_, hsane₂⟩
  · refine Eq.trans ?_ hdeal
    change exec (dealAll e closed ((p₁.placesBetween (offset fs + 1) (offset fs + size (node d (lines nss)))).map _))
      p₁ = _
    rw [hmade, branches_lines]
  · have hbranches : nss'.map (·.map (·.branch)) = ((x.branch :: more).zip bs).map fun nb =>
        nb.2.map fun _ => nb.1 := by
      rw [← hmore]
      exact branches_newLines e.calculus above names
    have htrail : (trailFrom 0 fs ++ [(d, offset fs)]).getLast?.map (·.1.branch) = some x.branch := by simp [h.branch]
    have hspread := spread_target h.shape (by rw [← hlen, ← hmore]) (hmore ▸ hnodup) htrail hbranches ag
      (k := offset fs + 1)
    have hmeans := means_closeLines (fun ns (hns : ns ∈ nss) => (h.newLines_spec hns).2.2) (offset fs + 1)
      (trailFrom 0 fs ++ [(d, offset fs)]) above
    have hlist := enlist_eq hx hmeans (hag.spread x.branch more)
    have hdepth : (trailFrom 0 fs ++ [(d, offset fs)]).length = above.length := by simp [above, length_trailFrom]
    rw [newEntries_lines, ← hspread, hdepth] at hlist
    have htail : names.tail = more := by simp only [names, hmore, List.tail_cons]
    rw [htail, ← hspread]
    intro new branches target
    have hnew' : new = placesAll (offset fs + 1) (trailFrom 0 fs ++ [(d, offset fs)]) [] (lines nss') := hnew
    simp only [branches, target, hnew']
    exact hlist

end Taking

end Proof

end TableauTutor

import TableauTutor.Proofs.Checking
import TableauTutor.Proofs.Recording

/-!
Histories. A node knows which sentences were used on the way to it, so that none of them is used there again. It copies
what the leaf above it knows when it is made, and the sentence that it was made from is added after that. Nothing is
ever taken out again: when moves are taken back, the nodes go with all that they know. What a node knows is then just
what the recorded moves say that made the nodes from the root down to it.

- `Session.history_iff`: histories are what the record says, whatever was done to the proof.
-/

namespace TableauTutor

open ProofTree Calculus

/-! ## What was used on the way to a node -/

section Traced

variable {log more : List UsedRule} {ledger ledger' : Int → Sentence} {t : ProofTree} {ns : List Node}
    {y : Sentence} {k : Int} {fs : List Frame} {d : Node}

/-- one of the nodes was made by a recorded move that was used on the sentence; the ledger says for the layer of a move
what the move was used on -/
def UsedFor (log : List UsedRule) (ledger : Int → Sentence) (ns : List Node) (y : Sentence) : Prop :=
  ∃ u ∈ log, (∃ n ∈ ns, n.layer = u.layer) ∧ ledger u.layer = y

/-- every node knows what was used on the way to it, and nothing else -/
def ProofTree.Traced (t : ProofTree) (log : List UsedRule) (ledger : Int → Sentence) : Prop :=
  ∀ s ∈ strands t, ∀ i n, s.path[i]? = some n → ∀ y, n.history.contains y = true ↔
  UsedFor log ledger (s.path.take (i + 1)) y

theorem usedFor_unmark : UsedFor log ledger (ns.map Node.unmark) y ↔ UsedFor log ledger ns y := by
  simp [UsedFor, Node.unmark]

theorem usedFor_append_of_lt (hns : ∀ n ∈ ns, n.layer < k) (hmore : ∀ u ∈ more, k ≤ u.layer) :
    UsedFor (log ++ more) ledger ns y ↔ UsedFor log ledger ns y := by
  constructor
  · rintro ⟨u, hu, ⟨n, hn, hlayer⟩, hy⟩
    rcases List.mem_append.1 hu with hu | hu
    · exact ⟨u, hu, ⟨n, hn, hlayer⟩, hy⟩
    · have := hns n hn
      have := hmore u hu
      omega
  · rintro ⟨u, hu, hmade, hy⟩
    exact ⟨u, List.mem_append_left _ hu, hmade, hy⟩

theorem usedFor_congr (h : ∀ u ∈ log, ledger' u.layer = ledger u.layer) :
    UsedFor log ledger' ns y ↔ UsedFor log ledger ns y := by
  constructor <;> rintro ⟨u, hu, hmade, hy⟩ <;> refine ⟨u, hu, hmade, ?_⟩
  · rwa [← h u hu]
  · rwa [h u hu]

/-- new nodes, all of one layer, below old ones: what was used on the way to the old ones, and what the moves of the new
layer were used on -/
theorem usedFor_append_new {news : List Node} (hnews : ∀ n ∈ news, n.layer = k) (hne : news ≠ [])
    (hlog : ∀ u ∈ log, u.layer < k) (hmore : ∀ u ∈ more, u.layer = k) :
    UsedFor (log ++ more) ledger (ns ++ news) y ↔ UsedFor log ledger ns y ∨ ∃ u ∈ more, ledger u.layer = y := by
  constructor
  · rintro ⟨u, hu, ⟨n, hn, hlayer⟩, hy⟩
    rcases List.mem_append.1 hu with hu | hu
    · rcases List.mem_append.1 hn with hn | hn
      · exact .inl ⟨u, hu, ⟨n, hn, hlayer⟩, hy⟩
      · have := hnews n hn
        have := hlog u hu
        omega
    · exact .inr ⟨u, hu, hy⟩
  · rintro (⟨u, hu, ⟨n, hn, hlayer⟩, hy⟩ | ⟨u, hu, hy⟩)
    · exact ⟨u, List.mem_append_left _ hu, ⟨n, List.mem_append_left _ hn, hlayer⟩, hy⟩
    · obtain ⟨n, hn⟩ := List.exists_mem_of_ne_nil _ hne
      refine ⟨u, List.mem_append_right _ hu, ⟨n, List.mem_append_right _ hn, ?_⟩, hy⟩
      rw [hnews n hn, hmore u hu]

namespace ProofTree

theorem traced_unmarked : t.unmarked.Traced log ledger ↔ t.Traced log ledger := by
  constructor
  · intro h s hs i n hn y
    have hs' : s.unmark ∈ strands t.unmarked := by
      rw [strands_unmarked]
      exact List.mem_map_of_mem hs
    have hn' : s.unmark.path[i]? = some n.unmark := by
      rw [Strand.path_unmark, List.getElem?_map, hn]
      rfl
    have hiff := h s.unmark hs' i n.unmark hn' y
    rwa [Strand.path_unmark, ← List.map_take, usedFor_unmark] at hiff
  · intro h s hs i n hn y
    rw [strands_unmarked] at hs
    obtain ⟨r, hr, rfl⟩ := List.mem_map.1 hs
    rw [Strand.path_unmark, List.getElem?_map] at hn
    obtain ⟨m, hm, rfl⟩ := Option.map_eq_some_iff.1 hn
    rw [Strand.path_unmark, ← List.map_take, usedFor_unmark]
    exact h r hr i m hm y

namespace Traced

theorem root (s : Sentence) (name : String) : (ProofTree.root s name).Traced [] ledger := by
  intro r hr i n hn y
  obtain rfl : r = ⟨[], { sentence := s, branch := name }⟩ := by simpa [Built.strands_root] using hr
  obtain rfl : n = { sentence := s, branch := name } := by simpa [Strand.path] using List.mem_of_getElem? hn
  simp [UsedFor, History.contains]

theorem leaf (h : (plug fs (node d [])).Traced log ledger) :
    d.history.contains y = true ↔ UsedFor log ledger (fs.map (·.data) ++ [d]) y := by
  have hlast := h _ (strand_mem_plug fs d) fs.length d (by simp [Strand.path]) y
  rwa [List.take_of_length_le (by simp [Strand.path])] at hlast

/-- **Layers taken away**: the nodes that are left know nothing of the moves that went. -/
theorem prune {kept rest : List UsedRule} (h : t.Traced (kept ++ rest) ledger) (hroot : t.data.layer < k)
    (hrest : ∀ u ∈ rest, k ≤ u.layer) : (t.prune k).Traced kept ledger := by
  intro s hs i n hn y
  obtain ⟨r, hr, more, hmore⟩ := exists_strand_of_prune hs
  have hi := (List.getElem?_eq_some_iff.1 hn).1
  have hn' : r.path[i]? = some n := by rw [← hmore, List.getElem?_append_left hi, hn]
  have htake : r.path.take (i + 1) = s.path.take (i + 1) := by rw [← hmore, List.take_append_of_le_length hi]
  have hlt : ∀ n ∈ s.path.take (i + 1), n.layer < k := by
    intro m hm
    rcases layer_of_prune hs (List.mem_of_mem_take hm) with rfl | hlt
    · exact hroot
    · exact hlt
  calc n.history.contains y = true ↔ UsedFor (kept ++ rest) ledger (s.path.take (i + 1)) y := by
        rw [h r hr i n hn' y, htake]
    _ ↔ UsedFor kept ledger (s.path.take (i + 1)) y := usedFor_append_of_lt hlt hrest

/-- **Growth**: new nodes below a leaf know what the leaf does, and what the moves of the new layer were used on. -/
theorem grow (h : (plug fs (node d [])).Traced log ledger) {ts : List ProofTree}
    (hrising : ∀ s ∈ strands (plug fs (node d [])), ∀ n ∈ s.path, n.layer < k) (hlog : ∀ u ∈ log, u.layer < k)
    (hmore : ∀ u ∈ more, u.layer = k) (hledger : ∀ u ∈ log, ledger' u.layer = ledger u.layer)
    (hts : ∀ s ∈ strandsAll ts, ∀ n ∈ s.path, n.layer = k ∧
      ∀ y, n.history.contains y = true ↔ d.history.contains y = true ∨ ∃ u ∈ more, ledger' u.layer = y) :
    (plug fs (node d ts)).Traced (log ++ more) ledger' := by
  -- for the nodes that were there nothing has changed
  have hold {s : Strand} (hs : s ∈ strands (plug fs (node d []))) {i : Nat} {n : Node} (hn : s.path[i]? = some n)
    (y : Sentence) : n.history.contains y = true ↔ UsedFor (log ++ more) ledger' (s.path.take (i + 1)) y := by
    have hlt : ∀ n ∈ s.path.take (i + 1), n.layer < k := fun n hn => hrising s hs n (List.mem_of_mem_take hn)
    calc n.history.contains y = true ↔ UsedFor log ledger (s.path.take (i + 1)) y := h s hs i n hn y
      _ ↔ UsedFor log ledger' (s.path.take (i + 1)) y := (usedFor_congr hledger).symm
      _ ↔ UsedFor (log ++ more) ledger' (s.path.take (i + 1)) y :=
        (usedFor_append_of_lt hlt fun u hu => (hmore u hu).ge).symm
  intro s hs i n hn y
  rcases strand_grown_cases hs with hs | ⟨r, hr, rfl⟩
  · exact hold hs hn y
  · have hmem := strand_mem_plug fs d
    rw [Strand.path_below] at hn ⊢
    by_cases hi : i < (fs.map (·.data) ++ [d]).length
    · -- a node of the old strand
      rw [List.getElem?_append_left hi] at hn
      rw [List.take_append_of_le_length hi]
      exact hold hmem hn y
    · rw [List.getElem?_append_right (by omega)] at hn
      have hnew := hts r hr n (List.mem_of_getElem? hn)
      have hnews : ∀ n ∈ r.path.take (i + 1 - (fs.map (·.data) ++ [d]).length), n.layer = k :=
        fun n hn => (hts r hr n (List.mem_of_mem_take hn)).1
      have hsome : r.path.take (i + 1 - (fs.map (·.data) ++ [d]).length) ≠ [] := by
        rw [Ne, List.take_eq_nil_iff, not_or]
        exact ⟨by omega, List.ne_nil_of_mem (List.mem_of_getElem? hn)⟩
      rw [List.take_append, List.take_of_length_le (by omega)]
      calc n.history.contains y = true ↔ d.history.contains y = true ∨ ∃ u ∈ more, ledger' u.layer = y := hnew.2 y
        _ ↔ UsedFor log ledger' (fs.map (·.data) ++ [d]) y ∨ ∃ u ∈ more, ledger' u.layer = y := by
          rw [h.leaf, usedFor_congr hledger]
        _ ↔ _ := (usedFor_append_new hnews hsome hlog hmore).symm

end Traced

/-- the move names the sentence that the ledger has for its layer -/
def Entered (ledger : Int → Sentence) (t : ProofTree) (u : UsedRule) (_ : ProofTree) : Prop :=
  u.Premiss t (ledger u.layer)

theorem Built.premiss {root : Sentence} {name : String} (h : Built (Entered ledger) root name t log) :
    ∀ u ∈ log, u.Premiss t (ledger u.layer) := by
  induction h with
  | root => simp
  | lost _ hg ih => exact fun u hu => (ih u hu).grow hg
  | move _ hg _ hentered ih =>
    intro u hu
    rcases List.mem_append.1 hu with hu | hu
    · exact (ih u hu).grow hg
    · rw [List.mem_singleton.1 hu]
      exact hentered.grow hg

end ProofTree

end Traced

/-! ## Proofs with a ledger -/

namespace Proof

variable {e : Setting} {p p' : Proof} {st root : Sentence} {name : String} {fs : List Frame} {d : Node} {g : Growth}

/-- a proof built by its moves whose nodes know what was used on the way to them, by a ledger
that the moves were entered in -/
def Accounted (st root : Sentence) (name : String) (p : Proof) : Prop :=
  ∃ ledger, Orderly (Entered ledger) (fun _ _ => True) st root name [] p ∧ p.tree.Traced p.used ledger

theorem contains_grownNode (s : Option Sentence) (n : String) (y z : Sentence) :
    (p.grownNode d s n y).history.contains z = true ↔ d.history.contains z = true ∨ s = some z := by
  cases s with
  | none => simp [grownNode, newNode]
  | some s =>
    rw [Option.some.injEq, eq_comm (a := s)]
    exact contains_insert

namespace Accounted

theorem fresh : Accounted st root name (.fresh st root name) := ⟨fun _ => [], .fresh, .root root name⟩

theorem names (h : Accounted st root name p) : ((strands p.tree).map (·.leaf.branch)).Nodup := by
  obtain ⟨ledger, horderly, -⟩ := h
  exact horderly.names

theorem lost (h : Accounted st root name p) (ht : p.tree = plug fs (node d [])) (hg : ∀ b ∈ g, b ≠ []) :
    Accounted st root name { p with tree := plug fs (node d (growth e p d g none)) } := by
  obtain ⟨ledger, horderly, htraced⟩ := h
  refine ⟨ledger, horderly.lost ht hg none, ?_⟩
  have hrising := horderly.rising
  have hlog := horderly.built.layer_lt
  rw [nextLayer_unmarked] at hlog
  rw [ht] at htraced
  have htraced' : (plug fs (node d (growth e p d g none))).Traced (p.used ++ []) ledger := by
    apply htraced.grow (ht ▸ hrising) hlog (by simp) (fun _ _ => rfl)
    intro s hs n hn
    obtain ⟨name, y, rfl⟩ := mem_growth hs hn
    exact ⟨by rw [grownNode_layer, ht], fun z => by simp [contains_grownNode]⟩
  rwa [List.append_nil] at htraced'

/-- **Growth that is recorded as a move**: the sentence that the move names is entered in the ledger. -/
theorem move (h : Accounted st root name p) (ht : p.tree = plug fs (node d [])) (hg : Full g)
    (hok : growthOutcome e p d g = .ok ())
    {u : UsedRule} (hu : u.layer = p.tree.nextLayer) {s : Sentence} (hs : u.Premiss p.tree s) :
    Accounted st root name { p with tree := plug fs (node d (growth e p d g (some s))), used := p.used ++ [u] } := by
  obtain ⟨ledger, horderly, htraced⟩ := h
  have hlog := horderly.built.layer_lt
  rw [nextLayer_unmarked] at hlog
  let ledger' : Int → Sentence := fun i => if i = p.tree.nextLayer then s else ledger i
  have hnew : ledger' u.layer = s := if_pos hu
  have hold : ∀ v ∈ p.used, ledger' v.layer = ledger v.layer := fun v hv => if_neg (hlog v hv).ne
  have horderly' : Orderly (Entered ledger') (fun _ _ => True) st root name [] p := by
    refine ⟨horderly.statement, horderly.built.mono_of_mem fun t v t' hv hentered => ?_, horderly.start,
      horderly.marked⟩
    rw [Entered, hold v hv]
    exact hentered
  have hentered : Entered ledger' p.tree.unmarked u (plug fs (node d (growth e p d g (some s)))).unmarked := by
    rw [Entered, hnew]
    exact premiss_unmarked.2 hs
  refine ⟨ledger', horderly'.move ht hg hok hu hentered, ?_⟩
  have hrising := horderly.rising
  rw [ht] at htraced
  apply htraced.grow (ht ▸ hrising) hlog (by simpa using hu) hold
  intro r hr n hn
  obtain ⟨name, y, rfl⟩ := mem_growth hr hn
  exact ⟨by rw [grownNode_layer, ht], fun z => by simp [contains_grownNode, hnew]⟩

theorem remark (h : Accounted st root name p) {t : ProofTree} (ht : t.unmarked = p.tree.unmarked) :
    Accounted st root name { p with tree := t } := by
  obtain ⟨ledger, horderly, htraced⟩ := h
  refine ⟨ledger, horderly.remark ht, traced_unmarked.1 ?_⟩
  rw [ht]
  exact traced_unmarked.2 htraced

theorem goTo (h : Accounted st root name p) (b : String) : Accounted st root name { p with branch := b } := by
  obtain ⟨ledger, horderly, htraced⟩ := h
  exact ⟨ledger, horderly.goTo b, htraced⟩

theorem prune (h : Accounted st root name p) {kept rest : List UsedRule} (hused : p.used = kept ++ rest) {k : Int}
    (hpos : 0 < k) (hkept : ∀ u ∈ kept, u.layer < k) (hrest : ∀ u ∈ rest, k ≤ u.layer) (b : String) :
    Accounted st root name { p with used := kept, tree := p.tree.prune k, branch := b } := by
  obtain ⟨ledger, horderly, htraced⟩ := h
  refine ⟨ledger, horderly.prune hused hkept hrest List.nil_prefix b, ?_⟩
  rw [hused] at htraced
  exact htraced.prune (by rwa [horderly.root_layer]) hrest

/-- **A history is what the record says**: the sentences of the moves that made the nodes from the root down. -/
theorem history (h : Accounted st root name p) {q : Place} (hq : q ∈ p.tree.places) (y : Sentence) :
    q.data.history.contains y = true ↔ ∃ u ∈ p.used, (∃ n ∈ q.path, n.layer = u.layer) ∧ u.Premiss p.tree y := by
  have hnames := h.names
  obtain ⟨ledger, horderly, htraced⟩ := h
  have hpremiss : ∀ u ∈ p.used, u.Premiss p.tree (ledger u.layer) := fun u hu =>
    premiss_unmarked.1 (horderly.built.premiss u hu)
  obtain ⟨s, hs, hbefore⟩ := exists_strand_of_place hq
  have hpath : q.path = q.strand.above ++ [q.data] := q.path_eq
  have hget : s.path[q.strand.above.length]? = some q.data := by
    obtain ⟨more, hmore⟩ := hbefore
    rw [← hmore, hpath]
    simp
  have htake : s.path.take (q.strand.above.length + 1) = q.path := by
    have hlen : q.strand.above.length + 1 = q.path.length := by rw [hpath, List.length_append, List.length_singleton]
    rw [hlen]
    exact (List.prefix_iff_eq_take.1 hbefore).symm
  rw [htraced s hs _ _ hget y, htake]
  refine exists_congr fun u => and_congr_right fun hu => and_congr_right fun _ => ?_
  constructor
  · rintro rfl
    exact hpremiss u hu
  · exact fun hy => (hpremiss u hu).unique hnames hy

end Accounted

/-! ## Everything that is done to a proof -/

/-- the record of a rule that a person used names the sentence it was used on -/
theorem premiss_move {b : String} {q : Place} {rule : String} {context : Context} {s : Sentence}
    (hfound : p.Found b q fs d)
    (hrule : e.calculus.useRule e.lexer rule ((fs.map (·.data) ++ [d]).map (·.sentence)) d.history context =
      .ok (some (g, s))) :
    (p.move rule context b).Premiss p.tree s := by
  have hmem : ⟨fs.map (·.data), d⟩ ∈ strands p.tree := by
    rw [hfound.tree]
    exact strand_mem_plug fs d
  exact ⟨_, hmem, hfound.branch, useRule_named hrule⟩

/-- **Using a rule** keeps the account. -/
theorem accounted_useOn (rule : String) (context : Context) (b : String) :
    Keeps (Accounted st root name) (useOn e rule context b) := by
  apply keeps_using
  · intro p q fs d g s hp hfound hrule
    exact hp.lost hfound.tree (useRule_full hrule).2
  · intro p q fs d g s hp hfound hrule hok
    exact hp.move hfound.tree (useRule_full hrule) hok rfl (premiss_move hfound hrule)

/-- **Closing a branch** keeps the account. -/
theorem accounted_dealClosure (b : String) : Keeps (Accounted st root name) (dealClosure e b) := by
  apply keeps_closing
  intro p q fs d v info hp hfound _
  apply hp.remark
  rw [unmarked_close, hfound.tree]

/-- a proof with an account; in the calculus with signs its nodes say something -/
def Recalls (c : Calculus) (st root : Sentence) (name : String) (p : Proof) : Prop :=
  (c = .signed → p.tree.Sane c) ∧ p.Accounted st root name

theorem recalls_dealClosure (b : String) : Keeps (Recalls e.calculus st root name) (dealClosure e b) :=
  .and (fun p hp hc => keeps_dealClosure_sane b p (hp hc)) (accounted_dealClosure b)

theorem recalls_useOn (hx : e.calculus = .signed → e.HasLexer) (rule : String) (context : Context) (b : String) :
    Keeps (Recalls e.calculus st root name) (useOn e rule context b) :=
  .and (fun p hp hc => keeps_useOn_sane (hx hc) rule context b p (hp hc)) (accounted_useOn rule context b)

theorem Recalls.prune {c : Calculus} (hp : Recalls c st root name p) {kept rest : List UsedRule}
    (hused : p.used = kept ++ rest)
    {k : Int} (hpos : 0 < k) (hkept : ∀ u ∈ kept, u.layer < k) (hrest : ∀ u ∈ rest, k ≤ u.layer) (b : String) :
    Recalls c st root name { p with used := kept, tree := p.tree.prune k, branch := b } := by
  have hback := hp.2.prune hused hpos hkept hrest b
  exact ⟨fun hc => sane_prune (hp.1 hc) hback.names, hback⟩

/-- **Steps of the solver** keep the account, also if there is no name for a branch: a move is recorded for the sentence
that is marked as used. -/
theorem attends_recalls (hx : e.calculus = .signed → e.HasLexer) (st root : Sentence) (name : String) :
    Attends e (Recalls e.calculus st root name) := by
  refine attends_of hx id Accounted.names (fun hp => ?_) accounted_dealClosure Accounted.lost fun hp h hok token _ => ?_
  · obtain ⟨ledger, horderly, -⟩ := hp
    exact (named_unmarked _).1 horderly.built.named
  · exact hp.move h.tree h.full hok rfl (h.premiss token)

theorem retreats_accounted (st root : Sentence) (name : String) : Retreats [] (Accounted st root name) where
  stays _ := List.nil_prefix
  back {p start rest} hp _ hused := by
    obtain ⟨hsorted, hpos, hlayer⟩ : start.Pairwise (·.layer < ·.layer) ∧ (∀ u ∈ start, 0 < u.layer) ∧
        ∀ u ∈ rest, layerAfter start ≤ u.layer := by
      obtain ⟨ledger, horderly, -⟩ := hp
      have hstart : Orderly (Entered ledger) (fun _ _ => True) st root name start p :=
        ⟨horderly.statement, horderly.built, ⟨rest, hused⟩, horderly.marked⟩
      obtain ⟨hsorted, hpos⟩ := horderly.layers
      rw [← hused] at hsorted hpos
      exact ⟨(List.pairwise_append.1 hsorted).1, fun u hu => hpos u (List.mem_append_left _ hu), hstart.lt_layer hused⟩
    exact hp.prune hused.symm (layerAfter_pos hpos) (lt_layerAfter hsorted) hlayer p.branch

/-- **The solver** keeps the account, also when it takes back what it gives up. -/
theorem recalls_solve (hx : e.calculus = .signed → e.HasLexer) :
    Keeps (Recalls e.calculus st root name) (solve e) :=
  (attends_recalls hx st root name).solve ((retreats_accounted st root name).sane Accounted.names e.calculus)

/-- **Every step** keeps the account. -/
theorem Step.recalls (hx : e.calculus = .signed → e.HasLexer) (h : Step e p p')
    (hp : Recalls e.calculus st root name p) : Recalls e.calculus st root name p' := by
  cases h with
  | use rule context b => exact recalls_useOn hx rule context b p hp
  | close b => exact recalls_dealClosure b p hp
  | goTo b => exact ⟨hp.1, hp.2.goTo b⟩
  | solve => exact recalls_solve hx p hp
  | @undo _ kept rest k b hused hfirst hleast =>
    obtain ⟨hpos, hkept⟩ : 0 < k ∧ ∀ u ∈ kept, u.layer < k := by
      obtain ⟨ledger, horderly, -⟩ := hp.2
      obtain ⟨hsorted, hpos⟩ := horderly.layers
      obtain ⟨v, hv, rfl⟩ := hfirst
      rw [hused] at hsorted hpos
      exact ⟨hpos v (List.mem_append_right _ hv), fun u hu => (List.pairwise_append.1 hsorted).2.2 u hu v hv⟩
    exact hp.prune hused hpos hkept hleast b

/-- one step of the solver: a sentence that waits for a rule is taken apart -/
def takeOne (e : Setting) (rule : String) (x : Pending) : Work Unit := do
  let a ← Outcome.lift ((← get).agenda e)
  if x ∈ a.waiting rule then
    let _ ← takeApart e rule x

/-- **One step of the solver** keeps the account, whatever sentence it is made with. -/
theorem recalls_takeOne (hx : e.calculus = .signed → e.HasLexer) (rule : String) (x : Pending) :
    Keeps (Recalls e.calculus st root name) (takeOne e rule x) := by
  intro p hp
  simp only [takeOne, exec_bind, exec_get, exec_lift]
  cases ha : p.agenda e with
  | error f => exact hp
  | ok a =>
    dsimp only
    split
    · rename_i hmem
      have htake := (attends_recalls hx st root name).take hp (apt_agenda ha rule x hmem)
      rw [exec_bind]
      rcases hrun : exec (Proof.takeApart e rule x) p with ⟨f | r, p'⟩ <;> rw [hrun] at htake
      · exact htake
      · exact htake
    · exact hp

end Proof

/-! ## In a session -/

namespace Session

variable {s : Session} {c : Calculus} {text : String} {φ : Sentence}

/-- what can be done to the proof of a session: a task, or one step of the solver -/
inductive Deed where
  | task (t : Task)
  | takeOne (rule : String) (x : Pending)

def Deed.act : Deed → Act Unit
  | task t => t.act
  | takeOne rule x => withProof fun e => Proof.takeOne e rule x

/-- deeds done one after another, whether they succeed or fail -/
def doDeeds (s : Session) (deeds : List Deed) : Session := deeds.foldl (fun s deed => (exec deed.act s).2) s

/-- **Every deed** keeps the account. -/
theorem recalls_deed {x : Lexer} (hx : c = .signed → c.HasLexer x) {root : Sentence} {name : String} (deed : Deed) :
    Keeps (WorksOn c x (Proof.Recalls c φ root name)) deed.act := by
  cases deed with
  | task t =>
    apply worksOn_task
    intro level p p' hstep hp
    exact Proof.Step.recalls (e := ⟨c, x, level⟩) hx hstep hp
  | takeOne rule y =>
    apply worksOn_withProof
    intro level
    exact Proof.recalls_takeOne (e := ⟨c, x, level⟩) hx rule y

/-- **Histories are what the record says.** Let a proof be started for a text, with a lexer that was made for one of the
calculi, as every session has (`Regular.hasLexer`), and let anything be done to it: rules used, the solver run as a
whole or step by step, moves taken back, whether it succeeds or fails. Then a node knows a sentence as used if and only
if a recorded move that made a node on the way from the root down to it was used on the sentence. So what is used on one
branch is not known on branches that go another way. -/
theorem history_iff {s₁ : Session} (hlexer : ∃ c : Calculus, c.HasLexer s.lexer)
    (h : exec (newProof text) s = (.ok none, s₁)) (deeds : List Deed) :
    ∃ p, (s₁.doDeeds deeds).proof = some p ∧ ∀ q ∈ p.tree.places, ∀ y, q.data.history.contains y = true ↔
      ∃ u ∈ p.used, (∃ n ∈ q.path, n.layer = u.layer) ∧ u.Premiss p.tree y := by
  obtain ⟨c, st, root, name, hc, hx, hsane, rfl⟩ := started_newProof hlexer h
  let e : Setting := ⟨c, s.lexer, s.config.accessibility⟩
  have hstarted : Proof.Recalls c st root name (exec (Proof.dealClosure e name) (.fresh st root name)).2 :=
    Proof.recalls_dealClosure (e := e) name _ ⟨hsane, .fresh⟩
  generalize (exec (Proof.dealClosure e name) (.fresh st root name)).2 = p₁ at hstarted
  have hall : (doDeeds { s with proof := some p₁ } deeds).WorksOn c s.lexer (Proof.Recalls c st root name) := by
    induction deeds using List.reverseRecOn with
    | nil => exact ⟨hc, rfl, p₁, rfl, hstarted⟩
    | append_singleton deeds deed ih =>
      rw [doDeeds, List.foldl_append]
      exact recalls_deed hx deed _ ih
  obtain ⟨p, hp, hrecalls⟩ := hall.proof
  exact ⟨p, hp, fun q hq y => hrecalls.2.history hq y⟩

/-- a rule used by a person, and then one step of the solver -/
def takenApart : List Deed :=
  [.task (.use "false or" [("sentenceID", .whole 0), ("tokenID", .whole 2)]),
    .takeOne "double not" ⟨[.of "not" "~", "(", .of "not" "~", .of "sentvar" "p", ")"], "Czerwona", 2⟩]

theorem history_iff_taken_apart : (∃ c : Calculus, c.HasLexer signedSession.lexer) ∧
    ∃ s₁ p, exec (newProof "p v ~p") signedSession = (.ok none, s₁) ∧ (s₁.doDeeds takenApart).proof = some p ∧
      p.used.length = 2 ∧ p.tree.places.map (·.data.history.used.length) = [0, 1, 1, 2] ∧
      ∀ q ∈ p.tree.places, ∀ y, q.data.history.contains y = true ↔
        ∃ u ∈ p.used, (∃ n ∈ q.path, n.layer = u.layer) ∧ u.Premiss p.tree y := by
  have hlexer : ∃ c : Calculus, c.HasLexer signedSession.lexer := ⟨_, signedSession_accepts.hasLexer⟩
  obtain ⟨a, root, name, -, -, hnew⟩ := exec_newProof signedSession_accepts
  obtain ⟨p, hp, hiff⟩ := history_iff hlexer hnew takenApart
  have hrun : ((exec (newProof "p v ~p") signedSession).2.doDeeds takenApart).proof.map (fun p =>
      (p.used.length, p.tree.places.map (·.data.history.used.length))) = some (2, [0, 1, 1, 2]) := by decide +kernel
  rw [hnew, hp, Option.map_some, Option.some.injEq, Prod.mk.injEq] at hrun
  exact ⟨hlexer, _, p, hnew, hp, hrun.1, hrun.2, hiff⟩

end Session

end TableauTutor

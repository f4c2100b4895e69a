import Mathlib.Data.List.Nodup
import Mathlib.Data.List.Perm.Basic
import TableauTutor.Proof.Solver
import TableauTutor.Proofs.Strands
import TableauTutor.Proofs.StrictRules
import TableauTutor.Proofs.Tables

/-!
Agendas. What an agenda holds is given by the list that waits for each rule; every change of an agenda is described by
what it does to those lists, and by what it does to all that waits, up to order.

- `enlist_eq`, `agenda_eq`: agendas are filled with the entries of nodes, `Proof.entryFor`.
-/

namespace TableauTutor

/-- the lexer is that of the calculus -/
abbrev Setting.HasLexer (e : Setting) : Prop := e.calculus.HasLexer e.lexer

namespace Agenda

open Calculus (ruleNames)

/-- there is a list for every rule, in the order of the rules -/
def Keyed (a : Agenda) : Prop := a.map (·.1) = ruleNames

theorem ruleNames_nodup : ruleNames.Nodup := by decide

theorem keyed_empty : Keyed empty := by
  rw [Keyed]
  decide

variable {a : Agenda} {r r' : String} {x : Pending}

/-! ## What waits for a rule -/

@[simp] theorem waiting_empty (r : String) : empty.waiting r = [] := by
  rw [waiting, empty]
  generalize ruleNames = names
  induction names with
  | nil => rfl
  | cons n names ih => by_cases h : r == n <;> simp [List.lookup_cons, h, ih]

theorem waiting_put (r r' : String) (xs : List Pending) (a : Agenda) :
    waiting (put r xs a) r' = if r' = r then xs else a.waiting r' := by
  by_cases h : r' = r <;> simp [waiting, lookup_put, h]

theorem Keyed.put (h : Keyed a) (hr : r ∈ ruleNames) (xs : List Pending) : Keyed (put r xs a) := by
  rw [Keyed, keys_put (by rwa [h]), h]

theorem Keyed.add (h : Keyed a) (hr : r ∈ ruleNames) (x : Pending) :
    a.add r x = .ok (TableauTutor.put r (a.waiting r ++ [x]) a) := by
  obtain ⟨xs, hxs⟩ := lookup_isSome (h.symm ▸ hr)
  simp [Agenda.add, waiting, hxs, pure_ok]

theorem waiting_map {f : List Pending → List Pending} {g : String × List Pending → String × List Pending}
    (hg : ∀ p, g p = (p.1, f p.2)) (hf : f [] = []) (r : String) : waiting (a.map g) r = f (a.waiting r) := by
  rw [waiting, lookup_map hg, waiting]
  cases a.lookup r <;> simp [hf]

/-- what waits on a branch, put on other branches -/
def copies (target : String) (bs : List String) (xs : List Pending) : List Pending :=
  (xs.filter (·.branch == target)).flatMap fun x => bs.map fun b => { x with branch := b }

theorem mem_copies {target : String} {bs : List String} {xs : List Pending} {y : Pending} :
    y ∈ copies target bs xs ↔ ∃ z ∈ xs, z.branch = target ∧ ∃ b ∈ bs, y = { z with branch := b } := by
  simp only [copies, List.mem_flatMap, List.mem_filter, List.mem_map, beq_iff_eq]
  constructor
  · rintro ⟨z, ⟨hz, hb⟩, b, hmem, rfl⟩
    exact ⟨z, hz, hb, b, hmem, rfl⟩
  · rintro ⟨z, hz, hb, b, hmem, rfl⟩
    exact ⟨z, ⟨hz, hb⟩, b, hmem, rfl⟩

theorem waiting_spread (target : String) (bs : List String) (r : String) :
    (a.spread target bs).waiting r = a.waiting r ++ copies target bs (a.waiting r) :=
  waiting_map (f := fun xs => xs ++ copies target bs xs) (fun _ => rfl) rfl r

theorem Keyed.spread (h : Keyed a) (target : String) (bs : List String) : Keyed (a.spread target bs) := by
  rw [Keyed, ← h, Agenda.spread, List.map_map]
  rfl

theorem waiting_dropBranches (closed : List String) (r : String) :
    (a.dropBranches closed).waiting r = (a.waiting r).filter fun x => !closed.contains x.branch :=
  waiting_map (f := List.filter fun x => !closed.contains x.branch) (fun _ => rfl) rfl r

theorem Keyed.dropBranches (h : Keyed a) (closed : List String) : Keyed (a.dropBranches closed) := by
  rw [Keyed, ← h, Agenda.dropBranches, List.map_map]
  rfl

/-! ## All that waits -/

/-- all that waits, rule by rule -/
def pending (a : Agenda) : List Pending := ruleNames.flatMap a.waiting

theorem mem_pending : x ∈ a.pending ↔ ∃ r ∈ ruleNames, x ∈ a.waiting r := List.mem_flatMap

/-- without empty lists, or with them, all that waits is what the lists hold -/
theorem Keyed.pending_eq (h : Keyed a) : a.pending = a.flatMap (·.2) := by
  have hnodup : (a.map (·.1)).Nodup := h.symm ▸ ruleNames_nodup
  rw [pending, ← h, List.flatMap_map]
  refine List.flatMap_congr fun p hp => ?_
  simp [waiting, lookup_of_mem hnodup hp]

theorem pending_put (hr : r ∈ ruleNames) {xs : List Pending} (x : Pending) :
    (pending (put r (xs ++ [x]) a)).Perm (x :: pending (put r xs a)) := by
  obtain ⟨l, l', heq⟩ := List.append_of_mem hr
  have hnodup := ruleNames_nodup
  rw [heq, List.nodup_append, List.nodup_cons] at hnodup
  have hne : ∀ s ∈ l ++ l', s ≠ r := by
    intro s hs
    rcases List.mem_append.1 hs with hs | hs
    · exact hnodup.2.2 s hs r List.mem_cons_self
    · exact fun h => hnodup.2.1.1 (h ▸ hs)
  have hsame (ys : List Pending) (m : List String) (hm : ∀ s ∈ m, s ≠ r) :
      m.flatMap (waiting (put r ys a)) = m.flatMap a.waiting :=
    List.flatMap_congr fun s hs => by rw [waiting_put, if_neg (hm s hs)]
  have hl : ∀ s ∈ l, s ≠ r := fun s hs => hne s (List.mem_append_left _ hs)
  have hl' : ∀ s ∈ l', s ≠ r := fun s hs => hne s (List.mem_append_right _ hs)
  simp only [pending, heq, List.flatMap_append, List.flatMap_cons, hsame _ _ hl, hsame _ _ hl', waiting_put, if_true]
  generalize l.flatMap a.waiting = u
  generalize l'.flatMap a.waiting = v
  simpa using @List.perm_middle _ x (u ++ xs) v

theorem pending_spread (target : String) (bs : List String) :
    (a.spread target bs).pending.Perm (a.pending ++ copies target bs a.pending) := by
  have hcopies : copies target bs a.pending = ruleNames.flatMap fun r => copies target bs (a.waiting r) := by
    simp only [pending, copies, List.filter_flatMap, List.flatMap_assoc]
  have heq : (a.spread target bs).pending = ruleNames.flatMap fun r => a.waiting r ++ copies target bs (a.waiting r) :=
    List.flatMap_congr fun r _ => waiting_spread target bs r
  rw [heq, hcopies]
  exact (List.flatMap_append_perm _ _ _).symm

theorem pending_dropBranches (closed : List String) :
    (a.dropBranches closed).pending = a.pending.filter fun x => !closed.contains x.branch := by
  rw [pending, pending, List.filter_flatMap]
  exact List.flatMap_congr fun r _ => waiting_dropBranches closed r

/-! ## Entries -/

/-- entries put on an agenda one after another, each for its rule -/
def enter (a : Agenda) (ys : List (String × Pending)) : Agenda :=
  ys.foldl (fun a y => put y.1 (a.waiting y.1 ++ [y.2]) a) a

theorem waiting_enter (ys : List (String × Pending)) (r : String) :
    (a.enter ys).waiting r = a.waiting r ++ (ys.filter (·.1 = r)).map (·.2) := by
  induction ys generalizing a with
  | nil => simp [enter]
  | cons y ys ih =>
    have hstep : a.enter (y :: ys) = enter (put y.1 (a.waiting y.1 ++ [y.2]) a) ys := rfl
    rw [hstep, ih, waiting_put]
    by_cases h : y.1 = r
    · subst h
      simp
    · simp [h, Ne.symm h]

theorem Keyed.enter (h : Keyed a) {ys : List (String × Pending)} (hys : ∀ y ∈ ys, y.1 ∈ ruleNames) :
    Keyed (a.enter ys) := by
  induction ys generalizing a with
  | nil => exact h
  | cons y ys ih =>
    obtain ⟨hy, hrest⟩ := List.forall_mem_cons.1 hys
    exact ih (h.put hy _) hrest

theorem pending_enter {ys : List (String × Pending)} (hys : ∀ y ∈ ys, y.1 ∈ ruleNames) :
    (a.enter ys).pending.Perm (a.pending ++ ys.map (·.2)) := by
  induction ys generalizing a with
  | nil => simp [enter]
  | cons y ys ih =>
    obtain ⟨hy, hrest⟩ := List.forall_mem_cons.1 hys
    have hput : pending (put y.1 (a.waiting y.1) a) = a.pending :=
      List.flatMap_congr fun r _ => by
        rw [waiting_put]
        split
        · rename_i h
          rw [h]
        · rfl
    have hone := @pending_put a y.1 hy (a.waiting y.1) y.2
    rw [hput] at hone
    exact (ih hrest).trans ((hone.append_right _).trans List.perm_middle.symm)

theorem enter_append (ys zs : List (String × Pending)) : a.enter (ys ++ zs) = (a.enter ys).enter zs :=
  List.foldl_append

theorem foldlM_enter {α : Type} {f : Agenda → α → Outcome Agenda} {g : α → List (String × Pending)} {items : List α}
    (hg : ∀ y ∈ items.flatMap g, y.1 ∈ ruleNames) (hf : ∀ x ∈ items, ∀ a, Keyed a → f a x = .ok (a.enter (g x)))
    (ha : Keyed a) : items.foldlM f a = .ok (a.enter (items.flatMap g)) := by
  induction items generalizing a with
  | nil => rfl
  | cons x items ih =>
    rw [List.flatMap_cons] at hg ⊢
    obtain ⟨hgx, hg⟩ := List.forall_mem_append.1 hg
    obtain ⟨hfx, hf⟩ := List.forall_mem_cons.1 hf
    rw [List.foldlM_cons, hfx a ha, enter_append]
    exact ih hg hf (ha.enter hgx)

end Agenda

namespace Calculus

theorem rule?_mem {a : Proposition} {r : String} (h : a.rule? = some r) : r ∈ ruleNames := by
  rcases a with x | (x | a | ⟨_ | _ | _, a, b⟩) | ⟨_ | _ | _, a, b⟩ <;> simp [Proposition.rule?, Junctor.kind] at h <;>
    (rw [← h]; decide)

end Calculus

namespace Proof

open ProofTree Calculus

variable {e : Setting} {a : Agenda} {s : Sentence} {A : Proposition}

/-- the entry for a sentence at a position of a branch, with the rule that takes it apart -/
def entryFor (e : Setting) (s : Sentence) (branch : String) (position : Nat) : Option (String × Pending) :=
  match e.calculus.ruleFor e.lexer s, e.calculus.toPlain e.lexer s with
  | .ok (some rule), .ok plain => some (rule, ⟨plain, branch, position⟩)
  | _, _ => none

theorem entryFor_eq (hx : e.HasLexer) (h : e.calculus.Means s A) (b : String) (i : Nat) :
    ∃ p : Sentence, e.calculus.toPlain e.lexer s = .ok p ∧ p.Reads A ∧ e.calculus.toNode e.lexer p = .ok s ∧
      entryFor e s b i = A.rule?.map fun r => (r, ⟨p, b, i⟩) := by
  obtain ⟨p, hp, hread, hnode⟩ := toPlain_reads hx h
  refine ⟨p, hp, hread, hnode, ?_⟩
  rw [entryFor, ruleFor_means hx h, hp]
  cases A.rule? <;> rfl

theorem entryFor_mem (hx : e.HasLexer) (h : ∃ A, e.calculus.Means s A) {b : String} {i : Nat}
    {y : String × Pending} (hy : entryFor e s b i = some y) : y.1 ∈ ruleNames := by
  obtain ⟨A, hA⟩ := h
  obtain ⟨p, -, -, -, heq⟩ := entryFor_eq hx hA b i
  rw [heq, Option.map_eq_some_iff] at hy
  obtain ⟨r, hr, rfl⟩ := hy
  exact rule?_mem hr

theorem note_eq (hx : e.HasLexer) (h : ∃ A, e.calculus.Means s A) (ha : a.Keyed) (b : String)
    (i : Nat) :
    (do
      match ← e.calculus.ruleFor e.lexer s with
      | none => return a
      | some rule => a.add rule ⟨← e.calculus.toPlain e.lexer s, b, i⟩ : Outcome Agenda) =
      .ok (a.enter (entryFor e s b i).toList) := by
  obtain ⟨A, hA⟩ := h
  obtain ⟨p, hp, -, -, heq⟩ := entryFor_eq hx hA b i
  rw [ruleFor_means hx hA, hp, heq]
  cases hr : A.rule? with
  | none => rfl
  | some r => exact ha.add (rule?_mem hr) _

/-- the entries of places that were made; a node that was closed has none -/
def newEntries (e : Setting) (new : List Place) : List (String × Pending) :=
  new.flatMap fun q => if q.data.closed.isSome then [] else (entryFor e q.data.sentence q.data.branch q.depth).toList

/-- the entries of a branch: of its sentences that are not used up -/
def strandEntries (e : Setting) (s : Strand) : List (String × Pending) :=
  s.path.zipIdx.flatMap fun (n, i) =>
    if s.leaf.history.contains n.sentence then [] else (entryFor e n.sentence s.leaf.branch i).toList

/-- the entries of the open branches of a tree -/
def openEntries (e : Setting) (t : ProofTree) : List (String × Pending) :=
  ((strands t).filter (·.leaf.closed.isNone)).flatMap (strandEntries e)

theorem newEntries_mem (hx : e.HasLexer) {new : List Place}
    (h : ∀ q ∈ new, ∃ A, e.calculus.Means q.data.sentence A) : ∀ y ∈ newEntries e new, y.1 ∈ ruleNames := by
  intro y hy
  obtain ⟨q, hq, hy⟩ := List.mem_flatMap.1 hy
  split at hy
  · simp at hy
  · exact entryFor_mem hx (h q hq) (Option.mem_toList.1 hy)

/-- **What was made is put on the agenda.** -/
theorem enlist_eq (hx : e.HasLexer) {new : List Place}
    (h : ∀ q ∈ new, ∃ A, e.calculus.Means q.data.sentence A) (ha : a.Keyed) :
    enlist e new a = .ok (a.enter (newEntries e new)) := by
  refine Agenda.foldlM_enter (newEntries_mem hx h) (fun q hq a ha => ?_) ha
  have hnote := note_eq hx (h q hq) ha q.data.branch q.depth
  by_cases hc : q.data.closed.isSome = true
  · simp only [hc, if_true]
    rfl
  · simp only [hc]
    exact hnote

theorem strandEntries_mem (hx : e.HasLexer) {s : Strand}
    (h : ∀ n ∈ s.path, ∃ A, e.calculus.Means n.sentence A) : ∀ y ∈ strandEntries e s, y.1 ∈ ruleNames := by
  intro y hy
  obtain ⟨⟨n, i⟩, hn, hy⟩ := List.mem_flatMap.1 hy
  simp only at hy
  split at hy
  · simp at hy
  · have hmem : n ∈ s.path := (List.mem_zipIdx' hn).2 ▸ List.getElem_mem _
    exact entryFor_mem hx (h n hmem) (Option.mem_toList.1 hy)

theorem openEntries_mem (hx : e.HasLexer) {t : ProofTree}
    (h : ∀ s ∈ strands t, ∀ n ∈ s.path, ∃ A, e.calculus.Means n.sentence A) :
    ∀ y ∈ openEntries e t, y.1 ∈ ruleNames := by
  intro y hy
  obtain ⟨s, hs, hy⟩ := List.mem_flatMap.1 hy
  exact strandEntries_mem hx (h s (List.mem_filter.1 hs).1) y hy

/-- **The first agenda** holds what is left to do on the open branches. -/
theorem agenda_eq (hx : e.HasLexer) {p : Proof}
    (h : ∀ s ∈ strands p.tree, ∀ n ∈ s.path, ∃ A, e.calculus.Means n.sentence A) :
    p.agenda e = .ok (Agenda.empty.enter (openEntries e p.tree)) := by
  have hopen : (strands p.tree).filter (·.leaf.closed.isNone) =
      (p.tree.leaves.filter (·.data.closed.isNone)).map Place.strand := by
    rw [← strands_eq_leaves, List.filter_map]
    rfl
  have hentries := openEntries_mem hx h
  rw [openEntries, hopen, List.flatMap_map] at hentries ⊢
  refine Agenda.foldlM_enter hentries (fun q hq a ha => ?_) Agenda.keyed_empty
  have hs : q.strand ∈ strands p.tree := by
    rw [← strands_eq_leaves]
    exact List.mem_map_of_mem (List.mem_filter.1 hq).1
  have hpath : ∀ m ∈ q.strand.path.zipIdx, m.1 ∈ q.strand.path :=
    fun m hm => (List.mem_zipIdx' hm).2 ▸ List.getElem_mem _
  rw [Place.path_eq]
  refine Agenda.foldlM_enter (strandEntries_mem hx (h _ hs)) (fun m hm a ha => ?_) ha
  have hnote := note_eq hx (h _ hs m.1 (hpath m hm)) ha q.data.branch m.2
  have hleaf : q.strand.leaf = q.data := rfl
  by_cases hc : q.data.history.contains m.1.sentence = true
  · simp only [hleaf, hc, if_true]
    rfl
  · simp only [hleaf, hc]
    exact hnote

end Proof

end TableauTutor

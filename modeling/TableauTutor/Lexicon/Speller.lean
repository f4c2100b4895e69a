import TableauTutor.Lexicon.Spelling

/-!
Where spellings come from. Tokens are made up from the spellings of written patterns: one of them is picked, which
may be another one on each occasion and for other tokens, or all are listed until one will do. Nothing else is known of
how they are picked and listed. For a pattern that stands for a list of words, what is picked is one of the words, and
what is listed are all of them, in some order.

The premise is this: what rules, the solver and loaded files make up is made up on one occasion. The check comes to an
occasion of its own for every sentence that it compares, and a practice formula for every symbol.

`Speller.orderly` takes the first choice everywhere, and `Speller.drawn` the word with a number that depends on the
occasion. What is proved about a lexer holds for every speller.
-/

namespace TableauTutor

/-! ## Patterns that list words -/

namespace Pattern

/-- the words that a pattern matches, in order of preference; there may be no such list -/
def words? : Pattern → Option (List (List Char))
  | empty => some [[]]
  | char c => some [[c]]
  | set false [.range a b] =>
    if a.toNat ≤ b.toNat ∧ b.toNat < 128 then some ((CharItem.between a b).map fun c => [c]) else none
  | seq p q => p.words?.bind fun us => q.words?.map fun ws => us.flatMap fun u => ws.map (u ++ ·)
  | alt p q => p.words?.bind fun us => q.words?.map (us ++ ·)
  | group _ p => p.words?
  | _ => none

theorem setSpellings_range (a b : Char) :
    setSpellings false [.range a b] = (CharItem.between a b).map fun c => [c] := by
  simp [setSpellings, itemSpellings]

theorem findSome?_flatMap {α β γ : Type} (g : β → Option γ) (f : α → List β) (xs : List α) :
    (xs.flatMap f).findSome? g = xs.findSome? fun x => (f x).findSome? g := by
  induction xs with
  | nil => rfl
  | cons x xs ih =>
    rw [List.flatMap_cons, List.findSome?_append, ih, List.findSome?_cons]
    cases (f x).findSome? g <;> rfl

/-- the search goes on with a text to its answer, whatever has been spelled before -/
def Answers (k : List Char → Spelling (Option (List Char))) (g : List Char → Option (List Char)) : Prop :=
  ∀ text st, ∃ st', (k text).run st = .ok (g text, st')

theorem answers_searchIn {k : List Char → Spelling (Option (List Char))} {g : List Char → Option (List Char)}
    (hk : Answers k g) (text : List Char) (ws : List (List Char)) (st : List (Spelled × List Char)) :
    ∃ st', (searchIn (fun w => k (text ++ w)) ws).run st = .ok (ws.findSome? fun w => g (text ++ w), st') := by
  induction ws generalizing st with
  | nil => exact ⟨st, rfl⟩
  | cons w ws ih =>
    obtain ⟨st', hw⟩ := hk (text ++ w) st
    obtain ⟨st'', hws⟩ := ih st'
    rw [searchIn, StateT.run_bind, hw, List.findSome?_cons]
    cases g (text ++ w) with
    | none => exact ⟨st'', hws⟩
    | some found => exact ⟨st', rfl⟩

/-- **The spellings of a pattern that lists words** are gone through in the order of the list. -/
theorem answers_search {p : Pattern} {ws : List (List Char)} (h : p.words? = some ws)
    {k : List Char → Spelling (Option (List Char))} {g : List Char → Option (List Char)} (hk : Answers k g) :
    Answers (p.search k) fun text => ws.findSome? fun w => g (text ++ w) := by
  fun_induction words? p generalizing ws k g with
  | case1 =>
    obtain rfl := Option.some.inj h
    intro text st
    obtain ⟨st', hst⟩ := hk text st
    exact ⟨st', by simpa [search] using hst⟩
  | case2 c =>
    obtain rfl := Option.some.inj h
    intro text st
    obtain ⟨st', hst⟩ := hk (text ++ [c]) st
    exact ⟨st', by simpa [search] using hst⟩
  | case3 a b hb =>
    obtain rfl := Option.some.inj h
    intro text st
    rw [search, setSpellings_range]
    exact answers_searchIn hk text _ st
  | case4 => simp at h
  | case5 p q ihp ihq =>
    obtain ⟨us, hus, h⟩ := Option.bind_eq_some_iff.1 h
    obtain ⟨vs, hvs, rfl⟩ := Option.map_eq_some_iff.1 h
    intro text st
    obtain ⟨st', hst⟩ := ihp hus (ihq hvs hk) text st
    refine ⟨st', ?_⟩
    simp only [search, hst, findSome?_flatMap, List.findSome?_map, Function.comp_def, List.append_assoc]
  | case6 p q ihp ihq =>
    obtain ⟨us, hus, h⟩ := Option.bind_eq_some_iff.1 h
    obtain ⟨vs, hvs, rfl⟩ := Option.map_eq_some_iff.1 h
    intro text st
    obtain ⟨st', hp⟩ := ihp hus hk text st
    obtain ⟨st'', hq⟩ := ihq hvs hk text st'
    simp only [search, StateT.run_bind, hp, List.findSome?_append]
    cases us.findSome? fun w => g (text ++ w) with
    | none => exact ⟨st'', hq⟩
    | some found => exact ⟨st', rfl⟩
  | case7 n p ih =>
    intro text st
    rw [search]
    have hgroup : Answers (fun longer => do Spelling.store (.group n) (longer.drop text.length); k longer) g := by
      intro longer st
      exact hk longer _
    exact ih h hgroup text st
  | case8 => simp at h

theorem find?_eq_of_words? {p : Pattern} {ws : List (List Char)} (h : p.words? = some ws) (test : List Char → Bool) :
    p.find? test = .ok (ws.find? test) := by
  have hk : Answers (fun text => return if test text then some text else none)
      fun text => if test text then some text else none := fun text st => ⟨st, rfl⟩
  obtain ⟨st', hst⟩ := answers_search h hk [] []
  rw [find?, hst]
  simp only [List.nil_append]
  rw [← List.findSome?_guard]
  rfl

/-- a pattern that lists words is spelled, and the spelling is one of the words -/
theorem exists_spell {p : Pattern} {ws : List (List Char)} (h : p.words? = some ws) (st : List (Spelled × List Char)) :
    ∃ w ∈ ws, ∃ st', p.spell.run st = .ok (w, st') := by
  fun_induction words? p generalizing ws st with
  | case1 =>
    obtain rfl := Option.some.inj h
    exact ⟨[], List.mem_singleton_self [], st, rfl⟩
  | case2 c =>
    obtain rfl := Option.some.inj h
    exact ⟨[c], List.mem_singleton_self [c], st, rfl⟩
  | case3 a b hb =>
    obtain rfl := Option.some.inj h
    rw [spell, setSpellings_range]
    obtain ⟨n, hn⟩ : ∃ n, b.toNat + 1 - a.toNat = n + 1 := ⟨b.toNat - a.toNat, by omega⟩
    rw [CharItem.between, hn, List.range_succ_eq_map, List.map_cons, List.map_cons]
    exact ⟨_, List.mem_cons_self, st, rfl⟩
  | case4 => simp at h
  | case5 p q ihp ihq =>
    obtain ⟨us, hus, h⟩ := Option.bind_eq_some_iff.1 h
    obtain ⟨vs, hvs, rfl⟩ := Option.map_eq_some_iff.1 h
    obtain ⟨u, hu, st', hp⟩ := ihp hus st
    obtain ⟨v, hv, st'', hq⟩ := ihq hvs st'
    refine ⟨u ++ v, List.mem_flatMap.2 ⟨u, hu, List.mem_map.2 ⟨v, hv, rfl⟩⟩, st'', ?_⟩
    have hrest : (do return u ++ (← q.spell) : Spelling (List Char)).run st' = .ok (u ++ v, st'') := by
      rw [StateT.run_bind, hq]
      rfl
    rw [spell, StateT.run_bind, hp]
    exact hrest
  | case6 p q ihp ihq =>
    obtain ⟨us, hus, h⟩ := Option.bind_eq_some_iff.1 h
    obtain ⟨vs, hvs, rfl⟩ := Option.map_eq_some_iff.1 h
    obtain ⟨u, hu, hspell⟩ := ihp hus st
    exact ⟨u, List.mem_append_left vs hu, hspell⟩
  | case7 n p ih =>
    obtain ⟨u, hu, st', hp⟩ := ih h st
    refine ⟨u, hu, (.group n, u) :: st', ?_⟩
    rw [spell, StateT.run_bind, hp]
    rfl
  | case8 => simp at h

theorem exists_first {p : Pattern} {ws : List (List Char)} (h : p.words? = some ws) : ∃ w ∈ ws, p.first = .ok w := by
  obtain ⟨w, hw, st', hspell⟩ := exists_spell h []
  exact ⟨w, hw, by rw [first, hspell]; rfl⟩

end Pattern

/-! ## Spellers -/

/-- a way to come by spellings of patterns -/
structure Speller where
  /-- one that is picked, on an occasion, to go with given tokens -/
  pick : List Nat → List (String × String) → Pattern → Except Pattern.SpellingError (List Char)
  /-- the first that passes a test, when they are listed -/
  find? : Pattern → (List Char → Bool) → Except Pattern.SpellingError (Option (List Char))
  pick_mem (occasion : List Nat) (tokens : List (String × String)) (p : Pattern) (ws : List (List Char))
    (h : p.words? = some ws) : ∃ w ∈ ws, pick occasion tokens p = .ok w
  find?_eq (p : Pattern) (ws : List (List Char)) (h : p.words? = some ws) :
    ∃ listed : List (List Char), listed.Perm ws ∧ ∀ test, find? p test = .ok (listed.find? test)

namespace Speller

/-- the speller that takes the first choice everywhere -/
def orderly : Speller where
  pick _ _ p := p.first
  find? := Pattern.find?
  pick_mem _ _ _ _ h := Pattern.exists_first h
  find?_eq _ ws h := ⟨ws, .refl ws, Pattern.find?_eq_of_words? h⟩

/-- the speller that takes, of the words of a pattern, the one with the number that is drawn -/
def drawn (number : List Nat → List (String × String) → Nat) : Speller where
  pick occasion tokens p :=
    match p.words? with
    | some (w :: ws) => .ok (((w :: ws)[number occasion tokens % (ws.length + 1)]?).getD w)
    | _ => p.first
  find? := Pattern.find?
  pick_mem occasion tokens p ws h := by
    rw [h]
    cases ws with
    | nil => exact Pattern.exists_first h
    | cons w ws =>
      have hlt : number occasion tokens % (ws.length + 1) < (w :: ws).length := Nat.mod_lt _ (Nat.succ_pos _)
      exact ⟨_, List.getElem_mem hlt, by simp only [List.getElem?_eq_getElem hlt, Option.getD_some]⟩
  find?_eq _ ws h := ⟨ws, .refl ws, Pattern.find?_eq_of_words? h⟩

instance : Inhabited Speller := ⟨orderly⟩

instance : Repr Speller := ⟨fun _ _ => "speller"⟩

/-- the speller on the i-th of the occasions that there are next -/
def turn (x : Speller) (i : Nat) : Speller where
  pick occasion := x.pick (i :: occasion)
  find? := x.find?
  pick_mem occasion := x.pick_mem (i :: occasion)
  find?_eq := x.find?_eq

/-- what is picked does not depend on the occasion -/
def Steady (x : Speller) : Prop := ∀ occasion tokens p, x.pick occasion tokens p = x.pick [] tokens p

theorem Steady.turn {x : Speller} (h : x.Steady) (i : Nat) : (x.turn i).Steady := fun occasion tokens p =>
  (h (i :: occasion) tokens p).trans (h [i] tokens p).symm

end Speller

end TableauTutor

import TableauTutor.Proofs.Upkeep

/-!
Setups. Whether a plugin can be put into a socket depends on the socket, on the folders of plugins, on what was read for
this socket before, and on the file of the configuration; what is put into other sockets changes none of these. So if
each plugin of a setup can be plugged in a session, all of them can be plugged one after another.

- `Socket.same_plug`, `Socket.frame_plug`: what plugging depends on, and what it changes.
- `Session.Underway`: some plugins of a setup are plugged, others are to come; `Underway.step`, `Underway.run`.
-/

namespace TableauTutor

open Calculus

/-! ## Files -/

namespace Files

variable {w w' : Files} {path : String} {l : Location} {d : Datum}

/-- where a path leads depends on the folders only -/
theorem follow_congr (hw : w'.folders = w.folders) {here : Location} {cs : List String}
    (h : w.follow path here cs = .ok l) : w'.follow path here cs = .ok l := by
  induction cs generalizing here with
  | nil => exact h
  | cons c cs ih =>
    have hholds : w'.holdsFolder here = w.holdsFolder here := by rw [holdsFolder, holdsFolder, hw]
    rw [follow] at h ⊢
    rw [hholds]
    by_cases hfolder : w.holdsFolder here = true
    · rw [if_pos hfolder] at h ⊢
      by_cases hstay : c = "" ∨ c = "."
      · rw [if_pos hstay] at h ⊢
        exact ih h
      · rw [if_neg hstay] at h ⊢
        by_cases hup : c = ".."
        · rw [if_pos hup] at h ⊢
          exact ih h
        · rw [if_neg hup] at h ⊢
          exact ih h
    · rw [if_neg hfolder] at h
      split at h <;> cases h

theorem locate_files (h : w.locate path = .ok l) (files : List (Location × Datum)) :
    locate { w with files } path = .ok l :=
  follow_congr (show Files.folders { w with files } = w.folders from rfl) h

/-- the path leads somewhere, and not to a folder -/
def Writable (w : Files) (path : String) : Prop := ∃ l, w.locate path = .ok l ∧ w.holdsFolder l = false

theorem write_eq_ok (h : w.write path d = .ok w') :
    ∃ l, w.locate path = .ok l ∧ w.holdsFolder l = false ∧ w' = { w with files := put l d w.files } := by
  obtain ⟨l, hl, h⟩ := of_bind_eq_ok h
  split at h
  · cases h
  · rename_i hfolder
    exact ⟨l, hl, Bool.eq_false_iff.2 hfolder, (Except.ok.inj h).symm⟩

theorem writable_of_write (h : w.write path d = .ok w') : w.Writable path := by
  obtain ⟨l, hl, hfolder, -⟩ := write_eq_ok h
  exact ⟨l, hl, hfolder⟩

theorem Writable.write (h : w.Writable path) (d : Datum) : ∃ w', w.write path d = .ok w' ∧ w'.Writable path := by
  obtain ⟨l, hl, hfolder⟩ := h
  refine ⟨{ w with files := put l d w.files }, ?_, l, locate_files hl _, hfolder⟩
  rw [Files.write, hl]
  simp only [ok_bind, hfolder]
  rfl

theorem read_of_write (h : w.write path d = .ok w') : w'.read path = .ok d := by
  obtain ⟨l, hl, -, rfl⟩ := write_eq_ok h
  rw [read, locate_files hl]
  simp only [ok_bind, lookup_put, beq_self_eq_true, if_true]
  rfl

theorem isFile_of_read (h : w.read path = .ok d) : w.isFile path = true := by
  obtain ⟨l, hl, h⟩ := of_bind_eq_ok h
  simp only [isFile, hl, holdsFile]
  split at h
  · rename_i hd
    rw [hd]
    rfl
  · split at h <;> cases h

end Files

/-! ## What plugging depends on -/

/-- the shelves have the same folders, and the same was read from them for a socket -/
structure Shelf.Agrees (h h' : Shelf) (socket : String) : Prop where
  folders : h'.folders = h.folders
  cache : ∀ name, h'.cache.lookup (socket, name) = h.cache.lookup (socket, name)

theorem Shelf.Agrees.trans {h h' h'' : Shelf} {n : String} (hh : h.Agrees h' n) (hh' : h'.Agrees h'' n) :
    h.Agrees h'' n :=
  ⟨hh'.folders.trans hh.folders, fun name => (hh'.cache name).trans (hh.cache name)⟩

section Cache

variable {κ α : Type} [BEq κ] [LawfulBEq κ] {t : List (κ × α)} {j k : κ}

theorem lookup_filter_ne (hk : k ≠ j) (t : List (κ × α)) : (t.filter (·.1 != j)).lookup k = t.lookup k := by
  induction t with
  | nil => rfl
  | cons x t ih =>
    by_cases hx : x.1 = j
    · have hne : (k == x.1) = false := beq_false_of_ne fun h => hk (h.trans hx)
      rw [List.filter_cons_of_neg (by simp [hx]), ih, List.lookup_cons, hne]
    · rw [List.filter_cons_of_pos (by simpa using hx), List.lookup_cons, List.lookup_cons, ih]

theorem lookup_renewed (t : List (κ × α)) (j k : κ) (v : α) :
    (t.filter (·.1 != j) ++ [(j, v)]).lookup k = if k == j then some v else t.lookup k := by
  by_cases hk : k = j
  · obtain rfl := hk
    have hnone : (t.filter (·.1 != k)).lookup k = none := List.lookup_eq_none_iff.2 fun x hx => by
      have hne := (List.mem_filter.1 hx).2
      simpa using fun h : k = x.1 => by simp [h] at hne
    simp [List.lookup_append, hnone]
  · rw [List.lookup_append, lookup_filter_ne hk, List.lookup_cons, beq_false_of_ne hk]
    simp

theorem lookup_added (hnone : t.lookup j = none) (k : κ) (v : α) :
    (t ++ [(j, v)]).lookup k = if k == j then some v else t.lookup k := by
  by_cases hk : k = j
  · obtain rfl := hk
    simp [List.lookup_append, hnone]
  · rw [List.lookup_append, List.lookup_cons, beq_false_of_ne hk]
    simp

end Cache

/-- the work makes the same of two shelves that agree on a socket -/
def SameFor {α : Type} (socket : String) (x : Plugging α) : Prop :=
  ∀ h h' : Shelf, h.Agrees h' socket → (exec x h').1 = (exec x h).1 ∧ (exec x h).2.Agrees (exec x h').2 socket

namespace SameFor

variable {α β : Type} {n : String}

theorem pure (a : α) : SameFor n (Pure.pure a : Plugging α) := fun _ _ hh => ⟨rfl, hh⟩

theorem throw (f : Fault) : SameFor n (MonadExcept.throw f : Plugging α) := fun _ _ hh => ⟨rfl, hh⟩

theorem throw_bind (f : Fault) (g : α → Plugging β) : SameFor n (MonadExcept.throw f >>= g) := fun _ _ hh => ⟨rfl, hh⟩

theorem lift (x : Outcome α) : SameFor n (Outcome.lift x : Plugging α) := fun _ _ hh => ⟨rfl, hh⟩

theorem bind {x : Plugging α} {f : α → Plugging β} (hx : SameFor n x) (hf : ∀ a, SameFor n (f a)) :
    SameFor n (x >>= f) := by
  intro h h' hh
  obtain ⟨heq, hagree⟩ := hx h h' hh
  rw [exec_bind, exec_bind]
  rcases hrun : exec x h with ⟨r, t⟩
  rcases hrun' : exec x h' with ⟨r', t'⟩
  rw [hrun, hrun'] at heq hagree
  obtain rfl : r' = r := heq
  cases r' with
  | error g => exact ⟨rfl, hagree⟩
  | ok a => exact hf a t t' hagree

theorem ite {b : Prop} [Decidable b] {x y : Plugging α} (hx : SameFor n x) (hy : SameFor n y) :
    SameFor n (if b then x else y) := by
  split
  · exact hx
  · exact hy

end SameFor

namespace Socket

variable {k : Socket} {n : String}

theorem same_files (k : Socket) : SameFor n k.files := by
  intro h h' hh
  simp only [files, exec_bind, exec_get, hh.folders]
  cases h.folders.lookup k.folderName <;> exact ⟨rfl, hh⟩

theorem same_readFile (k : Socket) (name : String) : SameFor n (k.readFile name) := by
  refine (same_files k).bind fun fs => ?_
  dsimp only
  split
  · exact .pure _
  · exact .pure _
  · exact .throw _

theorem keeps_readFile {I : Shelf → Prop} (k : Socket) (name : String) : Keeps I (k.readFile name) := by
  refine (keeps_files k).bind fun fs => ?_
  dsimp only
  split
  · exact .pure _
  · exact .pure _
  · exact .throw _

theorem exec_readFile (k : Socket) (name : String) (h : Shelf) : ∃ r, exec (k.readFile name) h = (r, h) :=
  ⟨_, Prod.ext rfl (keeps_readFile (I := (· = h)) k name h rfl)⟩

/-- an entry for the socket is the same on both shelves afterwards -/
theorem agrees_entry {h h' : Shelf} (hh : h.Agrees h' n) {key : String × String} {p : Plugin}
    {cache cache' : List ((String × String) × Plugin)}
    (hcache : ∀ j, cache.lookup j = if j == key then some p else h.cache.lookup j)
    (hcache' : ∀ j, cache'.lookup j = if j == key then some p else h'.cache.lookup j) :
    Shelf.Agrees { h with cache } { h' with cache := cache' } n := by
  refine ⟨hh.folders, fun name => ?_⟩
  rw [hcache, hcache', hh.cache]

theorem same_load (hk : k.name = n) (name : String) : SameFor n (k.load name) := by
  intro h h' hh
  unfold load
  simp only [exec_bind, exec_get, hk, hh.cache]
  cases hcache : h.cache.lookup (n, name) with
  | some p =>
    simp only [exec_bind, exec_modify, exec_pure]
    exact ⟨trivial, agrees_entry hh (fun j => lookup_renewed _ _ j p) fun j => lookup_renewed _ _ j p⟩
  | none =>
    have hcache' : h'.cache.lookup (n, name) = none := (hh.cache name).trans hcache
    obtain ⟨heq, -⟩ := same_readFile (n := n) k name h h' hh
    obtain ⟨r, hrun⟩ := exec_readFile k name h
    obtain ⟨r', hrun'⟩ := exec_readFile k name h'
    rw [hrun, hrun'] at heq
    obtain rfl : r' = r := heq
    simp only [exec_bind, hrun, hrun']
    cases r' with
    | error f => exact ⟨rfl, hh⟩
    | ok p =>
      dsimp only
      split
      · simp only [exec_bind, exec_modify, exec_pure]
        exact ⟨trivial, agrees_entry hh (fun j => lookup_added hcache j p) fun j => lookup_added hcache' j p⟩
      · exact ⟨rfl, hh⟩

/-- **Plugging** makes the same of shelves that agree on the socket. -/
theorem same_plug (hk : k.name = n) (name : String) : SameFor n (k.plug name) := by
  have hfetch (name : String) : SameFor n (k.fetch name) :=
    .ite (.throw_bind _ _) (((same_files k).bind fun _ => .pure _).bind fun _ => .ite (.throw_bind _ _)
      (same_load hk name))
  unfold plug
  refine .ite (.throw_bind _ _) (.ite (.pure _) ((hfetch _).bind fun p => ?_))
  unfold receive
  cases p.socket with
  | none => exact .throw _
  | some meant =>
    refine (SameFor.lift _).bind fun _ => ?_
    cases p.version with
    | none => exact .throw _
    | some version => exact (SameFor.lift _).bind fun _ => (SameFor.lift _).bind fun _ => .pure _

theorem frame_load (hk : k.name ≠ n) (name : String) (h : Shelf) : Keeps (fun h' => h.Agrees h' n) (k.load name) := by
  intro h' hh
  -- only an entry of the socket itself is made
  have hentry {cache : List ((String × String) × Plugin)} {p : Plugin}
      (hcache : ∀ j, cache.lookup j = if j == (k.name, name) then some p else h'.cache.lookup j) :
      h.Agrees { h' with cache } n := by
    refine ⟨hh.folders, fun m => ?_⟩
    have hne : ¬ ((n, m) == (k.name, name)) = true := by simpa using fun heq => absurd heq.symm hk
    rw [hcache, if_neg hne, hh.cache]
  unfold load
  simp only [exec_bind, exec_get]
  cases hcache : h'.cache.lookup (k.name, name) with
  | some p =>
    simp only [exec_bind, exec_modify, exec_pure]
    exact hentry fun j => lookup_renewed _ _ j p
  | none =>
    obtain ⟨r, hrun⟩ := exec_readFile k name h'
    simp only [exec_bind, hrun]
    cases r with
    | error f => exact hh
    | ok p =>
      dsimp only
      split
      · simp only [exec_bind, exec_modify, exec_pure]
        exact hentry fun j => lookup_added hcache j p
      · exact hh

/-- **Plugging** changes nothing for other sockets. -/
theorem frame_plug (hk : k.name ≠ n) (name : String) (h : Shelf) : h.Agrees (exec (k.plug name) h).2 n := by
  have hfetch (name : String) : Yields (fun h' => h.Agrees h' n) (k.fetch name) fun _ => True :=
    .ite (.throw_bind _ _) ((Yields.of_keeps (keeps_findPlugins k)).bind fun _ _ =>
      .ite (.throw_bind _ _) (Yields.of_keeps (frame_load hk name h)))
  have hplug : Yields (fun h' => h.Agrees h' n) (k.plug name) fun _ => True := by
    unfold plug
    refine .ite (.throw_bind _ _) (.ite (.pure trivial) ((hfetch _).bind fun p _ => ?_))
    exact (yields_receive k _ p).mono fun _ _ => trivial
  exact hplug.keeps h ⟨rfl, fun _ => rfl⟩

end Socket

/-! ## Setups -/

namespace Session

variable {speller : Speller} {steady : Prop} {s t u : Session} {c : Calculus} {k k' : Socket} {n new : String}
    {l : List (String × String)}

theorem calculus_of_role {p : Plugin} (hk : s.sockets.lookup "Formal" = some k) (hdummy : k.dummy = false)
    (hp : k.plugin = some p) (hrole : p.role = .calculus c) : s.calculus = .ok c := by
  have hplugin : s.plugin "Formal" = .ok p := by
    simp only [Session.plugin, hk, Socket.call, hdummy, hp]
    rfl
  simp only [Session.calculus, hplugin, ok_bind, hrole]
  rfl

theorem exists_makeLexer {p : Plugin} (hp : s.plugin "Lexicon" = .ok p) (hrole : p.role = .lexicon)
    (hc : s.calculus = .ok c) : ∃ x, c.HasLexer x ∧ s.makeLexer = .ok x := by
  obtain ⟨x, hx⟩ := c.exists_lexer? s.lexer.speller
  exact ⟨x, hasLexer_of_lexer? hx, makeLexer_eq_ok_iff.2 ⟨p, c, hp, hrole, hc, hx⟩⟩

/-- a plugin is switched if its socket takes it and the configuration can be written -/
theorem exec_plugSwitch_ok (hs : s.Regular speller steady) (hp : s.proof = none) (hk : s.sockets.lookup n = some k)
    {shelf : Shelf} (hplug : exec (k.plug new) s.shelf = (.ok k', shelf)) {files : Files}
    (hwrite : s.files.write s.configPath (s.replug n k' new).config.toDatum = .ok files) :
    exec (plugSwitch n new) s =
      if n = "Lexicon" then exec compileLexer { s.replug n k' new with shelf, files }
      else (.ok (), { s.replug n k' new with shelf, files }) := by
  have hname := (standard_of_lookup hs hk).2.name
  have hfind : s.findSocket n = .ok k := by
    simp only [findSocket, hk]
    rfl
  rw [exec_plugSwitch hfind fun _ => hp, hname, hplug]
  dsimp only
  generalize hr : Files.write _ _ _ = r
  obtain rfl : r = .ok files := hr.symm.trans hwrite
  rfl

/-- the lexer of a session is the one for signs, or will be when plugins are put into the sockets: the lexer is made
when the lexicon is plugged, for the calculus that is plugged then -/
def LexerDue (u : Session) (ns : List String) : Prop :=
  if "Lexicon" ∈ ns then u.calculus = .ok .signed ∨ ["Formal", "Lexicon"].Sublist ns else signed.HasLexer u.lexer

theorem LexerDue.step {v : Session} {ns : List String} (h : u.LexerDue (n :: ns)) (hn : n ∉ ns)
    (hcalculus : v.calculus = if n = "Formal" then .ok .signed else u.calculus)
    (hlexer : if n = "Lexicon" then ∀ c, v.calculus = .ok c → c.HasLexer v.lexer else v.lexer = u.lexer) :
    v.LexerDue ns := by
  unfold LexerDue at h ⊢
  by_cases hin : "Lexicon" ∈ ns
  · rw [if_pos (List.mem_cons_of_mem _ hin)] at h
    rw [if_pos hin]
    by_cases hformal : n = "Formal"
    · rw [if_pos hformal] at hcalculus
      exact .inl hcalculus
    · rw [if_neg hformal] at hcalculus
      exact h.imp hcalculus.trans fun hsub => hsub.of_cons_of_ne (Ne.symm hformal)
  · rw [if_neg hin]
    by_cases hlexicon : n = "Lexicon"
    · subst hlexicon
      rw [if_pos List.mem_cons_self] at h
      rw [if_pos rfl] at hlexer
      rw [if_neg (by decide)] at hcalculus
      refine hlexer _ (hcalculus.trans (h.resolve_right fun hsub => hin ?_))
      exact (hsub.of_cons_of_ne (by decide)).subset (List.mem_cons_of_mem _ (List.mem_singleton.2 rfl))
    · have hout : "Lexicon" ∉ n :: ns := fun hmem => (List.mem_cons.1 hmem).elim (fun h => hlexicon h.symm) hin
      rw [if_neg hlexicon] at hlexer
      rw [if_neg hout] at h
      rw [hlexer]
      exact h

/-- plugins of a setup with a calculus `c` are being plugged in a session `t`: those in `l` are still to come, and their
sockets are as they were -/
structure Underway (speller : Speller) (t : Session) (c : Calculus) (l : List (String × String)) (u : Session) :
    Prop where
  regular : u.Regular speller False
  idle : u.proof = none
  sockets : ∀ x ∈ l, u.sockets.lookup x.1 = t.sockets.lookup x.1
  shelf : ∀ x ∈ l, t.shelf.Agrees u.shelf x.1
  writable : u.files.Writable u.configPath
  calculus : ∃ c', u.calculus = .ok c'
  lexer : c = .signed → u.LexerDue (l.map (·.1))

/-- a calculus that is plugged under its name is the calculus of the session -/
theorem calculus_of_plug (hk : k.Standard "Formal") {shelf h : Shelf} (hh : h.Proper)
    (hplug : exec (k.plug new) h = (.ok k', shelf))
    (hnamed : c.Named (Text.withoutEnd ".py" new)) (hk' : s.sockets.lookup "Formal" = some k') :
    s.calculus = .ok c := by
  obtain ⟨-, hyields⟩ := Socket.yields_plug hk new h hh
  rw [hplug] at hyields
  obtain ⟨hstandard, htakes⟩ := hyields k' rfl
  obtain ⟨p, hp, hsocket, ⟨c', hrole, hnamed'⟩ | ⟨-, hbare | htemplate⟩⟩ := htakes rfl
  · obtain rfl := hnamed.unique hnamed'
    exact calculus_of_role hk' (hstandard.reads (by decide)) hp hrole
  · rw [hbare] at hsocket
    cases hsocket
  · exact absurd htemplate hnamed.ne_template

/-- **One more plugin** of the setup. -/
theorem Underway.step (hu : Underway speller t c ((n, new) :: l) u) (ht : t.Regular speller False)
    (hnone : t.proof = none) (hn : n ∈ socketNames)
    (hl : n ∉ l.map (·.1)) (hnamed : n = "Formal" → c.Named (Text.withoutEnd ".py" new))
    (hoffers : (exec (plugSwitch n new) t).1 = .ok ()) : ∃ u', exec (plugSwitch n new) u = (.ok (), u') ∧
    Underway speller t c l u' := by
  obtain ⟨k, k', _, _, y, hk, hplug, -, ht', hlexer⟩ := plugSwitch_eq_ok ht hnone hn (Prod.ext hoffers rfl)
  have hku : u.sockets.lookup n = some k := (hu.sockets (n, new) List.mem_cons_self).trans hk
  have hstandard := (standard_of_lookup ht hk).2
  -- the socket takes the plugin, and the configuration can be written
  obtain ⟨heq, -⟩ := Socket.same_plug hstandard.name new t.shelf u.shelf (hu.shelf (n, new) List.mem_cons_self)
  rw [hplug] at heq
  obtain ⟨shelf, hplug'⟩ : ∃ shelf, exec (k.plug new) u.shelf = (.ok k', shelf) :=
    ⟨(exec (k.plug new) u.shelf).2, Prod.ext heq rfl⟩
  obtain ⟨files, hwrite, hwritable⟩ := hu.writable.write (u.replug n k' new).config.toDatum
  have hexec := exec_plugSwitch_ok hu.regular hu.idle hku hplug' hwrite
  -- the calculus is the one of the setup, or as before
  have hown (s : Session) : (s.replug n k' new).sockets.lookup n = some k' := by simp [replug, lookup_put]
  have hother {m : String} (hm : m ≠ n) : (u.replug n k' new).sockets.lookup m = u.sockets.lookup m := by
    simp [replug, lookup_put, hm]
  have hcalculus : (u.replug n k' new).calculus = if n = "Formal" then .ok c else u.calculus := by
    by_cases hformal : n = "Formal"
    · subst hformal
      rw [if_pos rfl]
      exact calculus_of_plug hstandard hu.regular.shelf hplug' (hnamed rfl) (hown u)
    · rw [if_neg hformal]
      exact calculus_congr (hother (Ne.symm hformal))
  obtain ⟨c', hc'⟩ : ∃ c', (u.replug n k' new).calculus = .ok c' := by
    rw [hcalculus]
    split
    · exact ⟨c, rfl⟩
    · exact hu.calculus
  -- the lexer is made for this calculus, or as before
  obtain ⟨z, hrun, hz⟩ : ∃ z, exec (plugSwitch n new) u =
    (.ok (), { u.replug n k' new with shelf, files, lexer := z }) ∧
      if n = "Lexicon" then c'.HasLexer z else z = u.lexer := by
    by_cases hlexicon : n = "Lexicon"
    · subst hlexicon
      rw [if_pos rfl] at hexec hlexer
      obtain ⟨p, -, hp, hrole, -⟩ := makeLexer_eq_ok_iff.1 hlexer
      rw [ht'] at hp
      have hp' : Session.plugin { u.replug "Lexicon" k' new with shelf, files } "Lexicon" = .ok p := by
        rw [← hp]
        exact plugin_congr ((hown u).trans (hown t).symm)
      obtain ⟨z, hz, hmake⟩ := exists_makeLexer hp' hrole hc'
      refine ⟨z, ?_, hz⟩
      rw [hexec]
      simp only [compileLexer, exec_bind, exec_get, exec_lift, hmake, exec_modify]
    · rw [if_neg hlexicon] at hexec
      exact ⟨u.lexer, hexec, by rw [if_neg hlexicon]⟩
  have hregular := regular_plugSwitch n new u hu.regular
  rw [hrun] at hregular
  have hne {x : String × String} (hx : x ∈ l) : x.1 ≠ n := fun h => hl (h ▸ List.mem_map_of_mem hx)
  refine ⟨_, hrun, hregular, hu.idle, fun x hx => ?_, fun x hx => ?_, hwritable, ⟨c', hc'⟩, fun hc => ?_⟩
  · exact (hother (hne hx)).trans (hu.sockets x (List.mem_cons_of_mem _ hx))
  · have hframe := Socket.frame_plug (hstandard.name.trans_ne (hne hx).symm) new u.shelf
    rw [hplug'] at hframe
    exact (hu.shelf x (List.mem_cons_of_mem _ hx)).trans hframe
  · subst hc
    refine (hu.lexer rfl).step hl hcalculus ?_
    split at hz
    · rename_i hlexicon
      rw [if_pos hlexicon]
      intro c'' hc''
      obtain rfl : c' = c'' := Except.ok.inj (hc'.symm.trans hc'')
      exact hz
    · rename_i hlexicon
      rw [if_neg hlexicon]
      exact hz

/-- **The other plugins** of the setup. -/
theorem Underway.run (hu : Underway speller t c l u) (ht : t.Regular speller False) (hnone : t.proof = none)
    (hsub : ∀ x ∈ l, x.1 ∈ socketNames)
    (hl : (l.map (·.1)).Nodup) (hnamed : ∀ x ∈ l, x.1 = "Formal" → c.Named (Text.withoutEnd ".py" x.2))
    (hoffers : ∀ x ∈ l, (exec (plugSwitch x.1 x.2) t).1 = .ok ()) :
    ∃ u', exec (l.forM fun x => plugSwitch x.1 x.2) u = (.ok (), u') ∧ Underway speller t c [] u' := by
  induction l generalizing u with
  | nil => exact ⟨u, rfl, hu⟩
  | cons x l ih =>
    obtain ⟨hx, hl⟩ := List.nodup_cons.1 hl
    have hmem : x ∈ x :: l := List.mem_cons_self
    obtain ⟨v, hv, hunderway⟩ := hu.step ht hnone (hsub x hmem) hx (hnamed x hmem) (hoffers x hmem)
    obtain ⟨u', hu', hdone⟩ := ih hunderway (fun y hy => hsub y (List.mem_cons_of_mem _ hy)) hl
      (fun y hy => hnamed y (List.mem_cons_of_mem _ hy)) fun y hy => hoffers y (List.mem_cons_of_mem _ hy)
    refine ⟨u', ?_, hdone⟩
    rw [List.forM_eq_forM, List.forM_cons, exec_bind, hv]
    exact hu'

/-- **A setup can be plugged** in a session if each of its plugins can. -/
theorem exists_plugAll (ht : t.Regular speller False) (hnone : t.proof = none) {config : Config} (husual : config.Usual)
    {name : String}
    (hformal : config.plugins.lookup "Formal" = some name) (hnamed : c.Named (Text.withoutEnd ".py" name))
    (hlexicon : (config.plugins.lookup "Lexicon").isSome)
    (hoffers : ∀ x ∈ config.plugins, (exec (plugSwitch x.1 x.2) t).1 = .ok ())
    (hsign : c = .signed → t.calculus = .ok .signed ∨ ["Formal", "Lexicon"].Sublist (config.plugins.map (·.1))) :
    ∃ u, exec (config.plugins.forM fun x => plugSwitch x.1 x.2) t = (.ok (), u) ∧ u.Regular speller False ∧
    u.proof = none ∧ u.calculus = .ok c ∧ (c = .signed → signed.HasLexer u.lexer) ∧ u.files.Writable u.configPath := by
  -- before the first plugin
  obtain ⟨m, hm⟩ := Option.isSome_iff_exists.1 hlexicon
  have hmem := mem_of_lookup_eq hm
  obtain ⟨k, k', _, _, x, -, -, hwrite, ht', hlexer⟩ :=
    plugSwitch_eq_ok ht hnone (husual.sockets _ hmem) (Prod.ext (hoffers _ hmem) rfl)
  rw [if_pos rfl] at hlexer
  obtain ⟨-, c', -, -, hc', -⟩ := makeLexer_eq_ok_iff.1 hlexer
  have hcalculus : t.calculus = .ok c' := by
    rw [← hc', ht']
    exact (calculus_congr (by simp [replug, lookup_put])).symm
  have hstart : Underway speller t c config.plugins t := by
    refine ⟨ht, hnone, fun _ _ => rfl, fun _ _ => ⟨rfl, fun _ => rfl⟩, Files.writable_of_write hwrite,
      ⟨c', hcalculus⟩, fun hc => ?_⟩
    rw [LexerDue, if_pos (List.mem_map_of_mem hmem)]
    exact hsign hc
  -- after the last one
  have hone {x : String × String} (hx : x ∈ config.plugins) (hn : x.1 = "Formal") :
      c.Named (Text.withoutEnd ".py" x.2) := by
    have hlookup := lookup_of_mem husual.nodup hx
    rw [hn, hformal] at hlookup
    rwa [← Option.some.inj hlookup]
  obtain ⟨u, hrun, hdone⟩ := hstart.run ht hnone husual.sockets husual.nodup (fun x hx => hone hx) hoffers
  obtain ⟨-, -, hnoted⟩ := regular_plugAll husual.nodup husual.sockets ht hnone hrun
  obtain ⟨d, hd⟩ := hdone.calculus
  obtain ⟨n, hn, hnamed'⟩ := hdone.regular.named hd
  rw [(hnoted rfl).1 _ (mem_of_lookup_eq hformal)] at hn
  obtain rfl := Option.some.inj hn
  obtain rfl := hnamed.unique hnamed'
  exact ⟨u, hrun, hdone.regular, hdone.idle, hd, fun hc => hdone.lexer hc, hdone.writable⟩

end Session

end TableauTutor

import TableauTutor.Proofs.Agenda
import TableauTutor.Proofs.Moves
import TableauTutor.Session.Basic

/-!
Calculi among the plugins. Files are read again and again, and new ones are made from templates; still a calculus is
read only under its own name, and what is read under that name, if it can be plugged, is the calculus.

- `keeps_generate`: new plugins are no calculi.
- `yields_makeSockets`: the sockets that a session starts with.
-/

namespace TableauTutor

/-! ## Names -/

namespace Calculus

/-- the folder that the plugin of a calculus is in -/
def pluginName : Calculus → String
  | unsigned => "analytic_freedom"
  | signed => "analytic_signed"

/-- the names under which the plugin of a calculus can be read: its folder, and the file in it -/
def Named (c : Calculus) (n : String) : Prop := n = c.pluginName ∨ n = c.pluginName ++ "/__init__"

theorem Named.unique {c c' : Calculus} {n : String} (h : c.Named n) (h' : c'.Named n) : c = c' := by
  rcases h with rfl | rfl <;> revert h' <;> unfold Named <;> cases c <;> cases c' <;> decide

theorem Named.ne_template {c : Calculus} {n : String} (h : c.Named n) : n ≠ "__template__" := by
  rcases h with rfl | rfl <;> cases c <;> decide

end Calculus

namespace Plugin

variable {p : Plugin} {n : String}

/-- what may stand in a file of the folder of calculi: a calculus in its place, or something that plays no part; this
says for which socket it is only if it is the template, and copies of the template do not say it -/
def Filed (p : Plugin) (file : String) : Prop :=
  (∃ c, p.role = .calculus c ∧ file = c.pluginName ++ "/__init__.py") ∨
    p.role = .blank ∧ (p.socket = none ∨ file = "__template__.py" ∧ p.bareCopies = true)

/-- what may be read under a name in the folder of calculi -/
def ReadAs (p : Plugin) (n : String) : Prop :=
  (∃ c, p.role = .calculus c ∧ c.Named n) ∨ p.role = .blank ∧ (p.socket = none ∨ n = "__template__")

theorem Filed.readAs_folder (h : p.Filed (n ++ "/__init__.py")) (name : String) : ReadAs { p with name } n := by
  rcases h with ⟨c, hc, heq⟩ | ⟨hblank, hnone | ⟨heq, -⟩⟩
  · exact .inl ⟨c, hc, .inl ((String.append_left_inj _).1 heq)⟩
  · exact .inr ⟨hblank, .inl hnone⟩
  · have hend := congrArg (fun s => s.toList.reverse.take 12) heq
    simp at hend

theorem Filed.readAs_alone (h : p.Filed (n ++ ".py")) (name : String) : ReadAs { p with name } n := by
  rcases h with ⟨c, hc, heq⟩ | ⟨hblank, hnone | ⟨heq, -⟩⟩
  · refine .inl ⟨c, hc, .inr ?_⟩
    have hsplit : c.pluginName ++ "/__init__.py" = c.pluginName ++ "/__init__" ++ ".py" := by
      rw [String.append_assoc]; rfl
    exact (String.append_left_inj _).1 (heq.trans hsplit)
  · exact .inr ⟨hblank, .inl hnone⟩
  · have hsplit : "__template__.py" = "__template__" ++ ".py" := rfl
    exact .inr ⟨hblank, .inr ((String.append_left_inj _).1 (heq.trans hsplit))⟩

end Plugin

/-! ## Shelves and sockets -/

/-- calculi are in their places, on the shelf and among what was read -/
structure Shelf.Proper (h : Shelf) : Prop where
  filed : ∀ fs, h.folders.lookup (Bundle.folder "Formal") = some fs → ∀ f ∈ fs, f.2.Filed f.1
  cached : ∀ y ∈ h.cache, y.1.1 = "Formal" → y.2.ReadAs y.1.2

theorem Shelf.proper_bundle : (Bundle.shelf []).Proper := by
  refine ⟨fun fs hfs f hf => ?_, fun y hy => absurd hy List.not_mem_nil⟩
  obtain rfl := Option.some.inj (show some Bundle.calculi = some fs from hfs)
  simp only [Bundle.calculi, List.mem_cons, List.not_mem_nil, or_false] at hf
  rcases hf with rfl | rfl | rfl | rfl | rfl | rfl | rfl | rfl
  · exact .inr ⟨rfl, .inr ⟨rfl, rfl⟩⟩
  · exact .inr ⟨rfl, .inl rfl⟩
  · exact .inl ⟨.unsigned, rfl, rfl⟩
  · exact .inr ⟨rfl, .inl rfl⟩
  · exact .inr ⟨rfl, .inl rfl⟩
  · exact .inl ⟨.signed, rfl, rfl⟩
  · exact .inr ⟨rfl, .inl rfl⟩
  · exact .inr ⟨rfl, .inl rfl⟩

namespace Socket

/-- a socket of the program: its folder and its template go with its name, and it reads its plugins unless it is for the
interface -/
structure Standard (k : Socket) (n : String) : Prop where
  name : k.name = n
  place : k.place = .folder (Bundle.folder n)
  template : k.template = some "__template__"
  reads : n ≠ "UserInterface" → k.dummy = false

variable {k : Socket} {n : String} {h : Shelf}

theorem Standard.folderName (hk : k.Standard n) : k.folderName = Bundle.folder n := by
  rw [Socket.folderName, hk.place]

/-- a file that is looked up in the folder of calculi is one that may stand there -/
theorem filed_of_lookup (hh : h.Proper) {fs : List (String × Plugin)}
    (hfs : h.folders.lookup (Bundle.folder "Formal") = some fs)
    {file : String} {p : Plugin} (hp : fs.lookup file = some p) : p.Filed file :=
  hh.filed fs hfs (file, p) (mem_of_lookup_eq hp)

theorem yields_readFile (hk : k.name = n) (hplace : k.place = .folder (Bundle.folder n)) (name : String) :
    Yields Shelf.Proper (k.readFile name) fun p => n = "Formal" → p.ReadAs name := by
  intro h hh
  have hfolder : k.folderName = Bundle.folder n := by rw [Socket.folderName, hplace]
  simp only [readFile, files, exec_bind, exec_get, hfolder]
  cases hfs : h.folders.lookup (Bundle.folder n) with
  | none => exact ⟨hh, fun p hp => by cases hp⟩
  | some fs =>
    simp only [exec_pure]
    cases hin : fs.lookup (name ++ "/__init__.py") with
    | some p =>
      refine ⟨hh, fun q hq hn => ?_⟩
      subst hn
      obtain rfl := Except.ok.inj hq
      exact (filed_of_lookup hh hfs hin).readAs_folder _
    | none =>
      cases halone : fs.lookup (name ++ ".py") with
      | some p =>
        refine ⟨hh, fun q hq hn => ?_⟩
        subst hn
        obtain rfl := Except.ok.inj hq
        exact (filed_of_lookup hh hfs halone).readAs_alone _
      | none => exact ⟨hh, fun p hp => by cases hp⟩

/-- **What is read** in the folder of calculi, now or before. -/
theorem yields_load (hk : k.name = n) (hplace : k.place = .folder (Bundle.folder n)) (name : String) :
    Yields Shelf.Proper (k.load name) fun p => n = "Formal" → p.ReadAs name := by
  intro h hh
  unfold load
  simp only [exec_bind, exec_get]
  cases hcache : h.cache.lookup (k.name, name) with
  | some p =>
    have hread : n = "Formal" → p.ReadAs name := fun hn => hh.cached ((k.name, name), p)
      (mem_of_lookup_eq hcache) (hk.trans hn)
    simp only [exec_bind, exec_modify, exec_pure]
    refine ⟨⟨hh.filed, fun y hy hn => ?_⟩, fun q hq => Except.ok.inj hq ▸ hread⟩
    rcases List.mem_append.1 hy with hy | hy
    · exact hh.cached y (List.mem_of_mem_filter hy) hn
    · obtain rfl := List.mem_singleton.1 hy
      exact hread (hk.symm.trans hn)
  | none =>
    obtain ⟨hh', hq⟩ := yields_readFile hk hplace name h hh
    simp only [exec_bind]
    rcases hrun : exec (k.readFile name) h with ⟨f | p, h'⟩
    · rw [hrun] at hh'
      exact ⟨hh', fun p hp => by cases hp⟩
    · rw [hrun] at hh' hq
      have hread := hq p rfl
      simp only
      split
      · simp only [exec_bind, exec_modify, exec_pure]
        refine ⟨⟨hh'.filed, fun y hy hn => ?_⟩, fun q hq => Except.ok.inj hq ▸ hread⟩
        rcases List.mem_append.1 hy with hy | hy
        · exact hh'.cached y hy hn
        · obtain rfl := List.mem_singleton.1 hy
          exact hread (hk.symm.trans hn)
      · simp only [exec_pure]
        exact ⟨hh', fun q hq => Except.ok.inj hq ▸ hread⟩

theorem keeps_files {I : Shelf → Prop} (k : Socket) : Keeps I k.files := by
  refine Keeps.get.bind fun h => ?_
  cases h.folders.lookup k.folderName with
  | none => exact .throw _
  | some fs => exact .pure _

theorem keeps_findPlugins {I : Shelf → Prop} (k : Socket) : Keeps I k.findPlugins :=
  (keeps_files k).bind fun _ => .pure _

/-- what a socket has taken: if it is the one for calculi, something that says for which socket it is and that may be
read under its name -/
def Takes (k : Socket) (n name : String) : Prop :=
  n = "Formal" → ∃ p, k.plugin = some p ∧ p.socket.isSome ∧ p.ReadAs (Text.withoutEnd ".py" name)

/-- what is fetched for the socket of calculi may be read under its name -/
theorem yields_fetch (hk : k.Standard n) (name : String) :
    Yields Shelf.Proper (k.fetch name) fun p => n = "Formal" → p.ReadAs name := by
  refine .ite (.throw_bind _ _) ((Yields.of_keeps (keeps_findPlugins k)).bind fun found _ => ?_)
  exact .ite (.throw_bind _ _) (yields_load hk.name hk.place name)

/-- what is received is held, and says for which socket it is -/
theorem yields_receive {I : Shelf → Prop} (k : Socket) (name : String) (p : Plugin) :
    Yields I (k.receive name p) fun k' => k' = k.hold name p ∧ p.socket.isSome := by
  unfold receive
  cases hsocket : p.socket with
  | none => exact .throw _
  | some meant =>
    refine (Yields.of_keeps (Keeps.lift _)).bind fun _ _ => ?_
    cases p.version with
    | none => exact .throw _
    | some version =>
      refine (Yields.of_keeps (Keeps.lift _)).bind fun _ _ => (Yields.of_keeps (Keeps.lift _)).bind fun _ _ => ?_
      exact .pure ⟨rfl, rfl⟩

/-- **What comes into a socket.** -/
theorem yields_plug (hk : k.Standard n) (name : String) :
    Yields Shelf.Proper (k.plug name) fun k' => k'.Standard n ∧ k'.Takes n name := by
  unfold plug
  refine .ite (.throw_bind _ _) ?_
  by_cases hdummy : k.dummy = true
  · rw [if_pos hdummy]
    refine .pure ⟨hk, fun hn => ?_⟩
    have hread := hk.reads (by rw [hn]; decide)
    rw [hread] at hdummy
    cases hdummy
  rw [if_neg hdummy]
  refine (yields_fetch hk _).bind fun p hp => (yields_receive k _ p).mono ?_
  rintro _ ⟨rfl, hsocket⟩
  exact ⟨⟨hk.name, hk.place, hk.template, hk.reads⟩, fun hn => ⟨p, rfl, hsocket, hp hn⟩⟩

/-- **New plugins** are copies of a template, so they are no calculi. -/
theorem keeps_generate (hk : k.Standard n) (plugin : String) : Keeps Shelf.Proper (k.generate plugin) := by
  intro h hh
  unfold generate
  simp only [hk.template]
  by_cases hne : Text.withoutEnd ".py" plugin = "__template__"
  · rw [if_pos hne]
    exact hh
  rw [if_neg hne]
  simp only [files, exec_bind, exec_get, hk.folderName]
  cases hfs : h.folders.lookup (Bundle.folder n) with
  | none => exact hh
  | some fs =>
    simp only [exec_pure]
    cases htemplate : fs.lookup ("__template__" ++ ".py") with
    | none => exact hh
    | some p =>
      dsimp only
      split
      · exact hh
      simp only [exec_modify]
      refine ⟨fun gs hgs f hf => ?_, hh.cached⟩
      rw [lookup_put] at hgs
      split at hgs
      · rename_i heq
        -- the folder is the one of calculi
        obtain rfl : "Formal" = n := by
          have := eq_of_beq heq
          exact (String.append_right_inj _).1 this
        obtain rfl := Option.some.inj hgs
        rcases mem_of_put hf with rfl | hf
        · rcases filed_of_lookup hh hfs htemplate with ⟨c, -, heq⟩ | ⟨hblank, hsocket⟩
          · exfalso
            cases c <;> revert heq <;> decide
          · refine .inr ?_
            unfold Plugin.copied
            split
            · exact ⟨hblank, .inl rfl⟩
            · rename_i hbare
              refine ⟨hblank, .inl ?_⟩
              rcases hsocket with hnone | ⟨-, hcopies⟩
              · exact hnone
              · exact absurd hcopies hbare
        · exact hh.filed fs hfs f hf
      · exact hh.filed gs hgs f hf

/-- a socket with the functions of the template in its folder -/
theorem yields_readTemplate (hname : k.name = n) (hplace : k.place = .folder (Bundle.folder n))
    (hreads : n ≠ "UserInterface" → k.dummy = false) :
    Yields Shelf.Proper (k.readTemplate "__template__.py") fun k' => k'.Standard n ∧ k'.plugin = k.plugin := by
  have htemplate : Text.withoutEnd ".py" "__template__.py" = "__template__" := by decide
  unfold readTemplate
  simp only [htemplate]
  refine Yields.get.bind fun h _ => ?_
  cases h.folders.lookup k.folderName with
  | none => exact .throw _
  | some fs =>
    refine .ite (.throw_bind _ _) ((yields_load (k := { k with template := some "__template__" }) hname hplace _).bind
      fun p _ => ?_)
    refine (Yields.of_keeps (Keeps.lift _)).bind fun _ _ => ?_
    cases p.socket with
    | none => exact .throw _
    | some meant =>
      refine (Yields.of_keeps (Keeps.lift _)).bind fun _ _ => (Yields.of_keeps (Keeps.lift _)).bind fun fs _ => .pure ?_
      exact ⟨⟨hname, hplace, rfl, hreads⟩, rfl⟩

theorem proper_addFolder (hh : h.Proper) (path : String) :
    Shelf.Proper { h with folders := h.folders ++ [(path, [])] } := by
  refine ⟨fun fs hfs f hf => ?_, hh.cached⟩
  simp only [List.lookup_append] at hfs
  cases hold : h.folders.lookup (Bundle.folder "Formal") with
  | some gs =>
    rw [hold, Option.some_or] at hfs
    exact hh.filed fs (hold.trans hfs) f hf
  | none =>
    rw [hold, Option.none_or, List.lookup_cons] at hfs
    split at hfs
    · obtain rfl := Option.some.inj hfs
      exact absurd hf List.not_mem_nil
    · cases hfs

/-- **A new socket** of the program, with a plugin unless the name of the plugin is empty. -/
theorem yields_make (n version plugged : String) {dummy : Bool} (hreads : n ≠ "UserInterface" → dummy = false) :
    Yields Shelf.Proper (make n (.folder (Bundle.folder n)) version (.template "__template__.py") plugged dummy)
    fun k =>
      k.Standard n ∧ if plugged.isEmpty then k.plugin = none else k.Takes n plugged := by
  unfold make
  refine Yields.get.bind fun h _ => ?_
  have hadd : Keeps Shelf.Proper
      (modify fun h => { h with folders := h.folders ++ [(Bundle.folder n, [])] } : Plugging Unit) :=
    Keeps.change fun h hh => proper_addFolder hh _
  refine .ite ((Yields.of_keeps hadd).bind fun _ _ => ?_) ?_ <;>
  · refine (Yields.of_keeps (Keeps.lift _)).bind fun version _ => .ite (.throw_bind _ _) ?_
    refine (yields_readTemplate rfl rfl hreads).bind fun k hk => ?_
    by_cases hempty : plugged.isEmpty = true
    · simp only [if_pos hempty]
      exact .pure hk
    · simp only [if_neg hempty]
      exact yields_plug hk.1 plugged

end Socket

/-! ## Sockets of a session -/

namespace Session

def socketNames : List String := ["Assistant", "Formal", "Lexicon", "Output", "UserInterface"]

/-- the sockets of a session and the configuration that goes with them: there is one socket of each kind, plugins that
are in sockets are noted, and what is in the socket for calculi may be read under the name that is noted -/
structure Plugged (ks : List (String × Socket)) (chosen : List (String × String)) : Prop where
  names : ks.map (·.1) = socketNames
  standard : ∀ x ∈ ks, x.2.Standard x.1
  noted : ∀ x ∈ ks, x.2.plugin.isSome → (chosen.lookup x.1).isSome
  formal : ∀ k p, ks.lookup "Formal" = some k → k.plugin = some p →
    ∃ n, chosen.lookup "Formal" = some n ∧ p.socket.isSome ∧ p.ReadAs (Text.withoutEnd ".py" n)

/-- a socket that was made for a name: it is as it should be, and has the plugin that is
noted for the name, if there is one -/
structure Fills (c : Config) (n : String) (k : Socket) : Prop where
  standard : k.Standard n
  plugin : if ((c.plugins.lookup n).getD "").isEmpty then k.plugin = none else k.Takes n ((c.plugins.lookup n).getD "")

theorem Fills.exists_noted {c : Config} {n : String} {k : Socket} {p : Plugin} (h : Fills c n k)
    (hp : k.plugin = some p) : ∃ name, c.plugins.lookup n = some name ∧ k.Takes n name := by
  have hplugin := h.plugin
  cases hn : c.plugins.lookup n with
  | none =>
    rw [hn, Option.getD_none, if_pos (by decide), hp] at hplugin
    cases hplugin
  | some name =>
    rw [hn, Option.getD_some] at hplugin
    split at hplugin
    · rw [hp] at hplugin
      cases hplugin
    · exact ⟨name, rfl, hplugin⟩

/-- **The sockets that a session starts with.** -/
theorem yields_makeSockets (c : Config) : Yields Shelf.Proper (makeSockets c) fun ks => Plugged ks c.plugins := by
  have hread : ∀ x ∈ Bundle.sockets, Yields Shelf.Proper (do
      return (x.1, ← Socket.make x.1 (.folder (Bundle.folder x.1)) x.2 (.template "__template__.py")
        ((c.plugins.lookup x.1).getD "") false)) fun y => x.1 = y.1 ∧ Fills c y.1 y.2 := fun x _ =>
    (Socket.yields_make x.1 x.2 _ fun _ => rfl).bind fun k hk => .pure ⟨rfl, hk.1, hk.2⟩
  refine (Yields.mapM hread).bind fun ks hks => ?_
  refine (Socket.yields_make _ _ _ fun h => absurd rfl h).bind fun k hk => .pure ?_
  have hnames : Bundle.sockets.map (·.1) = ks.map (·.1) :=
    List.forall₂_eq_eq_eq ▸ List.forall₂_map_left_iff.2 (List.forall₂_map_right_iff.2 (hks.imp fun x y h => h.1))
  have hfills : ∀ y ∈ ks, Fills c y.1 y.2 := by
    intro y hy
    obtain ⟨x, -, -, h⟩ := exists_of_forall₂ hks.flip hy
    exact h
  have hnone : k.plugin = none := by simpa using hk.2
  refine ⟨?_, ?_, ?_, ?_⟩
  · rw [List.map_append, ← hnames]
    rfl
  · exact List.forall_mem_append.2 ⟨fun y hy => (hfills y hy).standard, List.forall_mem_singleton.2 hk.1⟩
  · refine List.forall_mem_append.2 ⟨fun y hy hsome => ?_, List.forall_mem_singleton.2 fun hsome => ?_⟩
    · obtain ⟨p, hp⟩ := Option.isSome_iff_exists.1 hsome
      obtain ⟨name, hname, -⟩ := (hfills y hy).exists_noted hp
      rw [hname]
      rfl
    · simp [hnone] at hsome
  · intro k' p hk' hp
    rcases List.mem_append.1 (mem_of_lookup_eq hk') with hmem | hmem
    · obtain ⟨name, hname, htakes⟩ := (hfills _ hmem).exists_noted hp
      obtain ⟨p', hp', hsocket, hread⟩ := htakes rfl
      obtain rfl := Option.some.inj (hp'.symm.trans hp)
      exact ⟨name, hname, hsocket, hread⟩
    · -- the interface has another name
      have hname : "Formal" = "UserInterface" := congrArg Prod.fst (List.mem_singleton.1 hmem)
      exact absurd hname (by decide)

end Session

end TableauTutor

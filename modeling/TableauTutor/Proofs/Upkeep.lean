import TableauTutor.Proofs.Plugging
import TableauTutor.Proofs.Repeating

/-!
What is true of a session all the time. Its sockets and its configuration go together, the files hold what
the program writes, and the proof that is worked on is kept. Every action of a session leaves it so,
whether it succeeds or is refused.

- `Session.Regular`: what is true of a session.
- `regular_plugSwitch`, `regular_newProof`, `smooth_loadProof`, …: it stays true.
- `regular_start`: it is true when a session starts.
-/

namespace TableauTutor

open Calculus

/-! ## Configurations -/

namespace Config

/-- the configuration names sockets of the program, each at most once -/
structure Usual (c : Config) : Prop where
  nodup : (c.plugins.map (·.1)).Nodup
  sockets : ∀ x ∈ c.plugins, x.1 ∈ Session.socketNames

theorem usual_initial : Config.initial.Usual := ⟨by decide, by decide⟩

theorem ofDatum_toDatum (c : Config) : ofDatum c.toDatum = .ok c := by
  have hshown : (c.plugins.map fun x => (x.1, Datum.text x.2)).map (fun x => (x.1, x.2.shown)) = c.plugins := by
    rw [List.map_map]
    exact List.map_id' _
  unfold ofDatum
  exact congrArg (fun plugins => Except.ok (⟨plugins, c.accessibility⟩ : Config)) hshown

/-- a setup has a field for each socket and no other -/
theorem Usual.field?_pluginsDatum {c : Config} (h : c.Usual) {key : String} (hkey : key ∉ Session.socketNames) :
    c.pluginsDatum.field? key = none := by
  refine List.lookup_eq_none_iff.2 fun x hx => ?_
  obtain ⟨y, hy, rfl⟩ := List.mem_map.1 hx
  exact bne_iff_ne.2 fun heq => hkey (heq ▸ h.sockets y hy)

theorem Usual.put {c : Config} (h : c.Usual) {k : String} (hk : k ∈ Session.socketNames) (v : String) :
    Usual { c with plugins := put k v c.plugins } := by
  refine ⟨?_, fun x hx => ?_⟩
  · by_cases hmem : k ∈ c.plugins.map (·.1)
    · simp only [keys_put hmem]
      exact h.nodup
    · simp only [put_of_not_mem hmem, List.map_append]
      refine List.nodup_append.2 ⟨h.nodup, List.nodup_singleton _, ?_⟩
      intro a ha b hb hab
      rw [List.map_singleton, List.mem_singleton] at hb
      rw [hab, hb] at ha
      exact hmem ha
  · rcases mem_of_put hx with rfl | hx
    · exact hk
    · exact h.sockets x hx

end Config

/-! ## Files -/

/-- what the program writes into files. The statement of a saved proof says something if the proof was made in the
calculus with signs -/
inductive Stored : Datum → Prop
  | text (s : String) : Stored (.text s)
  | config {c : Config} (h : c.Usual) : Stored c.toDatum
  | setup {c : Config} (h : c.Usual) : Stored c.pluginsDatum
  | proof {s : Session} {p : Proof} {n : String} (h : s.config.Usual) (hn : s.config.plugins.lookup "Formal" = some n)
      (hsigned : signed.Named (Text.withoutEnd ".py" n) → ∃ a, p.statement.Expresses a) : Stored (s.savedProof p)

namespace Files

variable {w w' : Files} {path : String} {d : Datum}

theorem stored_of_read (h : ∀ f ∈ w.files, Stored f.2) (hd : w.read path = .ok d) : Stored d := by
  obtain ⟨l, -, hd⟩ := of_bind_eq_ok hd
  cases hl : w.files.lookup l with
  | some d' =>
    rw [hl] at hd
    obtain rfl := Except.ok.inj hd
    exact h (l, d') (mem_of_lookup_eq hl)
  | none =>
    rw [hl] at hd
    dsimp only at hd
    split at hd <;> cases hd

theorem stored_of_write (h : ∀ f ∈ w.files, Stored f.2) (hd : Stored d) (hw : w.write path d = .ok w') :
    ∀ f ∈ w'.files, Stored f.2 := by
  obtain ⟨l, -, hw⟩ := of_bind_eq_ok hw
  split at hw
  · cases hw
  · obtain rfl := Except.ok.inj hw
    intro f hf
    rcases mem_of_put hf with rfl | hf
    · exact hd
    · exact h f hf

theorem stored_of_remove (h : ∀ f ∈ w.files, Stored f.2) (hw : w.remove path = .ok w') :
    ∀ f ∈ w'.files, Stored f.2 := by
  obtain ⟨l, -, hw⟩ := of_bind_eq_ok hw
  obtain rfl := Except.ok.inj hw
  intro f hf
  exact h f (List.mem_of_mem_filter hf)

end Files

/-! ## Sessions -/

namespace Session

/-- what is true of a session all the time, if spellings are picked by the speller -/
structure Regular (speller : Speller) (steady : Prop) (s : Session) : Prop where
  usual : s.config.Usual
  plugged : Plugged s.sockets s.config.plugins
  shelf : s.shelf.Proper
  lexer : ∃ c : Calculus, c.lexer? speller = some s.lexer
  lexicon : (s.config.plugins.lookup "Lexicon").isSome
  files : ∀ f ∈ s.files.files, Stored f.2
  proof : ∀ p, s.proof = some p → ∃ e, s.setting = .ok e ∧ p.Kept steady e

variable {speller : Speller} {steady : Prop} {s t : Session} {p : Proof} {e : Setting} {c : Calculus} {α : Type}

theorem plugin_eq_ok {n : String} {p : Plugin} (h : s.plugin n = .ok p) :
    ∃ k, s.sockets.lookup n = some k ∧ k.plugin = some p := by
  unfold Session.plugin at h
  cases hk : s.sockets.lookup n with
  | none =>
    rw [hk] at h
    cases h
  | some k =>
    rw [hk] at h
    dsimp only at h
    have hcall : k.call = .ok p := by
      split at h
      · cases h
      · exact h
    refine ⟨k, rfl, ?_⟩
    unfold Socket.call at hcall
    split at hcall
    · cases hcall
    · split at hcall
      · rename_i hp'
        rw [hp', Except.ok.inj hcall]
      · cases hcall

theorem calculus_eq_ok (h : s.calculus = .ok c) :
    ∃ k p, s.sockets.lookup "Formal" = some k ∧ k.plugin = some p ∧ p.role = .calculus c := by
  obtain ⟨p, hp, h⟩ := of_bind_eq_ok h
  obtain ⟨k, hk, hplugin⟩ := plugin_eq_ok hp
  refine ⟨k, p, hk, hplugin, ?_⟩
  split at h
  · rename_i hrole
    rw [hrole, Except.ok.inj h]
  · cases h

theorem plugin_congr {n : String} (h : t.sockets.lookup n = s.sockets.lookup n) : t.plugin n = s.plugin n := by
  simp only [Session.plugin, h]

theorem calculus_congr (h : t.sockets.lookup "Formal" = s.sockets.lookup "Formal") : t.calculus = s.calculus := by
  simp only [Session.calculus, plugin_congr h]

theorem setting_congr (hk : t.sockets.lookup "Formal" = s.sockets.lookup "Formal") (hlexer : t.lexer = s.lexer)
    (hlevel : t.config.accessibility = s.config.accessibility) : t.setting = s.setting := by
  simp only [Session.setting, calculus_congr hk, hlexer, hlevel]

theorem calculus_of_setting (h : s.setting = .ok e) : s.calculus = .ok e.calculus ∧ e.lexer = s.lexer ∧
    e.accessibility = s.config.accessibility := by
  obtain ⟨c, hc, h⟩ := of_bind_eq_ok h
  obtain rfl := Except.ok.inj h
  exact ⟨hc, rfl, rfl⟩

namespace Regular

theorem named (h : s.Regular speller steady) (hc : s.calculus = .ok c) :
    ∃ n, s.config.plugins.lookup "Formal" = some n ∧ c.Named (Text.withoutEnd ".py" n) := by
  obtain ⟨k, p, hk, hp, hrole⟩ := calculus_eq_ok hc
  obtain ⟨n, hn, -, ⟨c', hrole', hnamed⟩ | ⟨hblank, -⟩⟩ := h.plugged.formal k p hk hp
  · rw [hrole] at hrole'
    cases hrole'
    exact ⟨n, hn, hnamed⟩
  · rw [hrole] at hblank
    cases hblank

theorem hasLexer (h : s.Regular speller steady) : ∃ c : Calculus, c.HasLexer s.lexer :=
  h.lexer.imp fun _ => hasLexer_of_lexer?

theorem speller_eq (h : s.Regular speller steady) : s.lexer.speller = speller := by
  obtain ⟨c, hc⟩ := h.lexer
  exact speller_of_lexer? hc

theorem of_files (h : s.Regular speller steady) {files : Files} (hf : ∀ f ∈ files.files, Stored f.2) :
    Regular speller steady { s with files } :=
  ⟨h.usual, h.plugged, h.shelf, h.lexer, h.lexicon, hf, h.proof⟩

theorem of_shelf (h : s.Regular speller steady) {shelf : Shelf} (hs : shelf.Proper) :
    Regular speller steady { s with shelf } :=
  ⟨h.usual, h.plugged, hs, h.lexer, h.lexicon, h.files, h.proof⟩

theorem of_proof (h : s.Regular speller steady) {p : Option Proof}
    (hp : ∀ q, p = some q → ∃ e, s.setting = .ok e ∧ q.Kept steady e) : Regular speller steady { s with proof := p } :=
  ⟨h.usual, h.plugged, h.shelf, h.lexer, h.lexicon, h.files, hp⟩

end Regular

/-! ### Work on the proof -/

theorem smooth_withProof {c : Prop} {x : Setting → Work α} (hx : ∀ e, KeepsSmooth c (Proof.Kept steady e) (x e)) :
    KeepsSmooth c (Regular speller steady) (withProof x) := by
  intro s hs hsmooth
  cases hp : s.proof with
  | none =>
    simp only [withProof, exec_bind, exec_get, hp]
    exact hs
  | some p =>
    obtain ⟨e, he, hkept⟩ := hs.proof p hp
    rcases hrun : exec (x e) p with ⟨r, p'⟩
    rw [exec_withProof he hp hrun] at hsmooth ⊢
    have hkept' := hx e p hkept
    rw [hrun] at hkept'
    apply hs.of_proof
    intro q hq
    obtain rfl := Option.some.inj hq
    exact ⟨e, he, hkept' hsmooth⟩

theorem regular_withProof {x : Setting → Work α} (hx : ∀ e, Keeps (Proof.Kept steady e) (x e)) :
    Keeps (Regular speller steady) (withProof x) :=
  (smooth_withProof fun e => (hx e).smooth).keeps

theorem regular_dealClosure (b : String) : Keeps (Regular speller steady) (dealClosure b) :=
  (regular_withProof fun _ => Proof.kept_dealClosure b).bind fun _ => .pure _

theorem kept_jump (target : String) : Keeps (Proof.Kept steady e) (Proof.jump target) := by
  intro p hp
  obtain ⟨b, hb⟩ := Proof.jump_frame target p
  rw [hb]
  exact hp.goTo b

theorem regular_jump (target : String) : Keeps (Regular speller steady) (jump target) :=
  regular_withProof fun _ => kept_jump target

theorem regular_next : Keeps (Regular speller steady) next := by
  refine regular_withProof fun e p hp => ?_
  obtain ⟨b, hb⟩ := Proof.next_frame p
  rw [hb]
  exact hp.goTo b

theorem smooth_solve : KeepsSmooth steady (Regular speller steady) solve := by
  refine (smooth_withProof fun _ => Proof.kept_solve).bind fun done => Keeps.smooth (.ite ?_ (.pure _))
  exact Keeps.get.bind fun t => (Keeps.lift _).bind fun q => .pure _

/-- **Using a rule**; what the person did wrong is told. -/
theorem smooth_useRule (rule : String) (context : Context) :
    KeepsSmooth steady (Regular speller steady) (useRule rule context) := by
  refine Keeps.get.smooth.bind fun s => (Keeps.lift _).smooth.bind fun p => (Keeps.lift _).smooth.bind fun c => ?_
  cases c.rule? rule with
  | none => exact (Keeps.throw _).smooth
  | some r =>
    refine .ite (Keeps.throw _).smooth (.tryCatch ?_ (fun f => ?_) fun f hf => ?_)
    · exact (smooth_withProof fun e => Proof.kept_useOn rule context p.branch).bind fun _ => (Keeps.pure _).smooth
    · cases f with
      | mistake m => exact Keeps.smooth (.ite ((Keeps.lift _).bind fun _ => .pure _) (.pure _))
      | _ => exact (Keeps.throw _).smooth
    · cases f with
      | mistake m => cases hf
      | _ => rfl

theorem currentProof_some (h : s.proof = some p) : s.currentProof = .ok p := by
  rw [currentProof, h]
  rfl

theorem currentProof_none (h : s.proof = none) : s.currentProof = .error noProof := by
  rw [currentProof, h]
  rfl

theorem regular_undo (amount : Int) : Keeps (Regular speller steady) (undo amount) := by
  intro s hs
  cases hp : s.proof with
  | none =>
    simp only [undo, exec_bind, exec_get, currentProof_none hp, exec_lift]
    exact hs
  | some p =>
    obtain ⟨p', n, u, heq, hp'⟩ := undo_frame hp amount
    obtain ⟨e, he, hkept⟩ := hs.proof p hp
    rw [heq]
    refine ⟨hs.usual, hs.plugged, hs.shelf, hs.lexer, hs.lexicon, hs.files, fun q hq => ?_⟩
    obtain rfl := Option.some.inj hq
    refine ⟨e, he, ?_⟩
    obtain rfl | ⟨kept, rest, k, hused, hfirst, hleast, rfl⟩ := hp'
    · exact hkept
    · exact hkept.undo _ hused hfirst hleast

theorem smooth_perform (u : UsedRule) : KeepsSmooth steady (Proof.Kept steady e) (Proof.perform e u) := by
  refine .ite ((kept_jump u.branch).smooth.bind fun _ => ?_) ?_ <;>
    exact Keeps.get.smooth.bind fun p => Proof.kept_useOn u.rule u.context p.branch

/-! ### Files -/

/-- files are written, and then something else is done -/
theorem holds_written {I : Session → Prop} {files : Outcome Files} {done : Act α} (hdone : Keeps I done) (hs : I s)
    (h : ∀ w, files = .ok w → I { s with files := w }) :
    I (exec (do
      let files ← Outcome.lift files
      set { s with files }
      done) s).2 := by
  simp only [exec_bind, exec_lift]
  cases hw : files with
  | error f => exact hs
  | ok w => exact hdone _ (h w hw)

theorem regular_writeConfig : Keeps (Regular speller steady) writeConfig :=
  Keeps.get_bind fun _ hs => holds_written (.pure _) hs fun _ hw =>
    hs.of_files (Files.stored_of_write hs.files (.config hs.usual) hw)

theorem regular_setupSave (name : String) : Keeps (Regular speller steady) (setupSave name) := by
  refine Keeps.get_bind fun s hs => ?_
  split
  · exact hs
  · exact holds_written (.pure _) hs fun w hw => hs.of_files (Files.stored_of_write hs.files (.setup hs.usual) hw)

theorem regular_setupDelete (name : String) : Keeps (Regular speller steady) (setupDelete name) := by
  refine Keeps.get_bind fun s hs => ?_
  split
  · exact hs
  · exact holds_written (.pure _) hs fun w hw => hs.of_files (Files.stored_of_remove hs.files hw)

theorem stored_savedProof (hs : s.Regular speller steady) (hp : s.proof = some p) : Stored (s.savedProof p) := by
  obtain ⟨e, he, root, name, hkept⟩ := hs.proof p hp
  obtain ⟨n, hn, hnamed⟩ := hs.named (calculus_of_setting he).1
  exact .proof hs.usual hn fun hsigned => (hkept.signed (hnamed.unique hsigned)).2

/-- what is kept when a file is written for the proof is kept when it is saved -/
theorem keeps_saveProof {I : Session → Prop} {name : String}
    (h : ∀ {s p w}, I s → s.proof = some p → s.files.write (savePath name) (s.savedProof p) = .ok w →
      I { s with files := w }) :
    Keeps I (saveProof name) := by
  refine Keeps.get_bind fun s hs => ?_
  cases hp : s.proof with
  | none => exact hs
  | some p =>
    dsimp only
    split
    · exact hs
    split
    · exact hs
    rw [← hp]
    exact holds_written (.pure _) hs fun w hw => h hs hp hw

theorem regular_saveProof (name : String) : Keeps (Regular speller steady) (saveProof name) :=
  keeps_saveProof fun hs hp hw => hs.of_files (Files.stored_of_write hs.files (stored_savedProof hs hp) hw)

theorem regular_resetProof : Keeps (Regular speller steady) resetProof :=
  Keeps.change fun _ hs => hs.of_proof fun _ h => by cases h

theorem regular_genFormula (length vars : Int) : Keeps (Regular speller steady) (genFormula length vars) := by
  refine Keeps.get_bind fun s hs => ?_
  simp only [exec_bind, exec_lift]
  cases s.calculus with
  | error f => exact hs
  | ok c => exact ⟨hs.usual, hs.plugged, hs.shelf, hs.lexer, hs.lexicon, hs.files, hs.proof⟩

/-! ### Plugins -/

theorem exec_withShelf (x : Plugging α) (s : Session) :
    exec (withShelf x) s = ((exec x s.shelf).1, { s with shelf := (exec x s.shelf).2 }) := by
  unfold withShelf
  simp only [exec_bind, exec_get]
  rfl

theorem regular_withShelf {x : Plugging α} (hx : Keeps Shelf.Proper x) :
    Keeps (Regular speller steady) (withShelf x) := by
  intro s hs
  rw [exec_withShelf]
  exact hs.of_shelf (hx _ hs.shelf)

theorem standard_of_lookup (h : s.Regular speller steady) {n : String} {k : Socket} (hk : s.sockets.lookup n = some k) :
    n ∈ socketNames ∧ k.Standard n := by
  have hmem := mem_of_lookup_eq hk
  refine ⟨?_, h.plugged.standard _ hmem⟩
  rw [← h.plugged.names]
  exact List.mem_map_of_mem hmem

theorem standard_of_findSocket (h : s.Regular speller steady) {name : String} {k : Socket}
    (hk : s.findSocket name = .ok k) : ∃ n ∈ socketNames, s.sockets.lookup n = some k ∧ k.Standard n := by
  unfold findSocket at hk
  split at hk
  · rename_i k' hk'
    obtain rfl := Except.ok.inj hk
    obtain ⟨hn, hstandard⟩ := standard_of_lookup h hk'
    exact ⟨name, hn, hk', hstandard⟩
  · split at hk
    · cases hk
    · rename_i n _ _
      split at hk
      · rename_i k' hk'
        obtain rfl := Except.ok.inj hk
        obtain ⟨hn, hstandard⟩ := standard_of_lookup h hk'
        exact ⟨n, hn, hk', hstandard⟩
      · cases hk

/-- the session after a plugin was put into a socket -/
def replug (s : Session) (n : String) (k : Socket) (name : String) : Session :=
  { s with sockets := put n k s.sockets, config := { s.config with plugins := put n name s.config.plugins } }

/-- **A plugin in a socket** of a regular session; the calculus cannot be changed during a proof. -/
theorem Regular.replug (h : s.Regular speller steady) {n name : String} {k : Socket} (hn : n ∈ socketNames)
    (hk : k.Standard n)
    (htakes : k.Takes n name) (hproof : n = "Formal" → s.proof = none) : (s.replug n k name).Regular
    speller steady := by
  have hmem : n ∈ s.sockets.map (·.1) := by
    rw [h.plugged.names]
    exact hn
  have hnoted {m : String} (hm : (s.config.plugins.lookup m).isSome) :
      ((put n name s.config.plugins).lookup m).isSome := by
    rw [lookup_put]
    split
    · rfl
    · exact hm
  refine ⟨h.usual.put hn name, ⟨?_, ?_, ?_, ?_⟩, h.shelf, h.lexer, hnoted h.lexicon, h.files, ?_⟩
  · exact (keys_put hmem k).trans h.plugged.names
  · intro x hx
    rcases mem_of_put hx with rfl | hx
    · exact hk
    · exact h.plugged.standard x hx
  · intro x hx hsome
    rcases mem_of_put hx with rfl | hx
    · simp only [Session.replug, lookup_put, beq_self_eq_true, if_true, Option.isSome_some]
    · exact hnoted (h.plugged.noted x hx hsome)
  · intro k' p hk' hp
    simp only [Session.replug, lookup_put] at hk' ⊢
    by_cases hformal : n = "Formal"
    · subst hformal
      rw [if_pos (by decide)] at hk' ⊢
      obtain rfl := Option.some.inj hk'
      obtain ⟨p', hp', hsocket, hread⟩ := htakes rfl
      obtain rfl := Option.some.inj (hp'.symm.trans hp)
      exact ⟨name, rfl, hsocket, hread⟩
    · have hne : ¬ ("Formal" == n) = true := by simpa using Ne.symm hformal
      rw [if_neg hne] at hk' ⊢
      exact h.plugged.formal k' p hk' hp
  · intro p hp
    obtain ⟨e, he, hkept⟩ := h.proof p hp
    refine ⟨e, ?_, hkept⟩
    have hne : ¬ ("Formal" == n) = true := by
      intro heq
      have hnone := hproof (eq_of_beq heq).symm
      rw [show s.proof = some p from hp] at hnone
      cases hnone
    rw [← he]
    refine setting_congr ?_ rfl rfl
    simp only [Session.replug, lookup_put, if_neg hne]

/-- the lexer can be made again when there is no proof -/
theorem Regular.compileLexer (h : s.Regular speller steady) (hp : s.proof = none) :
    (exec compileLexer s).2.Regular speller steady := by
  simp only [Session.compileLexer, exec_bind, exec_get, exec_lift]
  cases hx : s.makeLexer with
  | error f => exact h
  | ok x =>
    obtain ⟨-, c, -, -, -, hc⟩ := makeLexer_eq_ok_iff.1 hx
    refine ⟨h.usual, h.plugged, h.shelf, ⟨c, h.speller_eq ▸ hc⟩, h.lexicon, h.files, fun p hp' => ?_⟩
    rw [show s.proof = some p from hp'] at hp
    cases hp

/-- **A plugin switched**: it is read and checked, noted in the configuration, and the configuration is written; for a
lexicon the lexer is made again. -/
theorem exec_plugSwitch {a new : String} {k : Socket} (hk : s.findSocket a = .ok k)
    (hbound : k.name ∈ bound → s.proof = none) :
      exec (plugSwitch a new) s = match exec (k.plug new) s.shelf with
      | (.error (.plugin e), shelf) => (.error (.refusal (.relayed e.message)), { s with shelf })
      | (.error f, shelf) => (.error f, { s with shelf })
      | (.ok k', shelf) =>
        let t := replug { s with shelf } k.name k' new
        match t.files.write t.configPath t.config.toDatum with
        | .error f => (.error f, t)
        | .ok files =>
          if k.name = "Lexicon" then exec compileLexer { t with files } else (.ok (), { t with files }) := by
  have hfree : ¬ (bound.contains k.name && s.proof.isSome) = true := by
    intro h
    obtain ⟨hmem, hsome⟩ := Bool.and_eq_true_iff.1 h
    rw [hbound (List.contains_iff_mem.1 hmem)] at hsome
    cases hsome
  unfold plugSwitch
  simp only [exec_bind, exec_get, exec_lift, hk]
  rw [if_neg hfree]
  simp only [exec_bind, exec_tryCatch, exec_withShelf]
  rcases exec (k.plug new) s.shelf with ⟨f | k', shelf⟩
  · cases f <;> rfl
  · simp only [exec_modify, writeConfig, exec_bind, exec_get, exec_lift, replug]
    generalize Files.write _ _ _ = r
    rcases r with f | files
    · rfl
    · simp only [exec_set]
      split <;> rfl

/-- a request to switch a plugin is turned down, or a socket is found whose plugin can be changed -/
theorem plugSwitch_cases (a new : String) (s : Session) : (∃ f, exec (plugSwitch a new) s = (.error f, s)) ∨
    ∃ k, s.findSocket a = .ok k ∧ (k.name ∈ bound → s.proof = none) := by
  cases hk : s.findSocket a with
  | error f =>
    refine .inl ⟨f, ?_⟩
    simp only [plugSwitch, exec_bind, exec_get, exec_lift, hk]
  | ok k =>
    by_cases hbound : k.name ∈ bound → s.proof = none
    · exact .inr ⟨k, rfl, hbound⟩
    · obtain ⟨hmem, hsome⟩ := Classical.not_imp.1 hbound
      have hrefused : (bound.contains k.name && s.proof.isSome) = true :=
        Bool.and_eq_true_iff.2 ⟨List.contains_iff_mem.2 hmem, Option.isSome_iff_ne_none.2 hsome⟩
      refine .inl ⟨.refusal (.proofOpen k.name), ?_⟩
      simp only [plugSwitch, exec_bind, exec_get, exec_lift, hk, hrefused, if_true, exec_throw]

/-- **Plugins can be switched**, by any name. -/
theorem regular_plugSwitch (a new : String) : Keeps (Regular speller steady) (plugSwitch a new) := by
  intro s hs
  obtain ⟨f, hf⟩ | ⟨k, hk, hbound⟩ := plugSwitch_cases a new s
  · rw [hf]
    exact hs
  obtain ⟨n, hn, -, hstandard⟩ := standard_of_findSocket hs hk
  obtain ⟨hshelf, hyields⟩ := Socket.yields_plug hstandard new s.shelf hs.shelf
  rw [exec_plugSwitch hk hbound]
  rw [hstandard.name] at hbound ⊢
  rcases hplug : exec (k.plug new) s.shelf with ⟨f | k', shelf⟩
  · rw [hplug] at hshelf
    cases f <;> exact hs.of_shelf hshelf
  · rw [hplug] at hshelf hyields
    obtain ⟨hstandard', htakes⟩ := hyields k' rfl
    have hformal : n = "Formal" → s.proof = none := fun h => hbound (by rw [h]; decide)
    have ht := (hs.of_shelf hshelf).replug hn hstandard' htakes hformal
    dsimp only
    generalize hwrite : Files.write _ _ _ = r
    rcases r with f | files
    · exact ht
    · have ht' := ht.of_files (Files.stored_of_write ht.files (.config ht.usual) hwrite)
      dsimp only
      split
      · rename_i hlexicon
        exact ht'.compileLexer (hbound (by rw [hlexicon]; decide))
      · exact ht'

theorem regular_plugList (name : String) : Keeps (Regular speller steady) (plugList name) :=
  Keeps.get.bind fun _ => (Keeps.lift _).bind fun k => regular_withShelf k.keeps_findPlugins

theorem regular_plugGen (name plugin : String) : Keeps (Regular speller steady) (plugGen name plugin) := by
  refine Keeps.get_bind fun s hs => ?_
  simp only [exec_bind, exec_lift]
  cases hk : s.socket name with
  | error f => exact hs
  | ok k =>
    have hlookup : s.sockets.lookup name = some k := by
      unfold Session.socket at hk
      split at hk
      · rename_i hk'
        rw [hk', Except.ok.inj hk]
      · cases hk
    exact regular_withShelf (Socket.keeps_generate (standard_of_lookup hs hlookup).2 plugin) s hs

/-- what switching a plugin keeps is kept when a setup is activated -/
theorem keeps_activate {I : Session → Prop} (hI : ∀ a new, Keeps I (plugSwitch a new))
    (entries : List (String × String)) (hs : I s) : I (activate entries s).2 := by
  induction entries generalizing s with
  | nil => exact hs
  | cons x entries ih =>
    obtain ⟨a, new⟩ := x
    have hswitch := hI a new s hs
    rcases hrun : exec (plugSwitch a new) s with ⟨f | _, t⟩ <;> rw [hrun] at hswitch <;> rw [exec] at hrun
    · cases f with
      | refusal m =>
        simp only [activate, hrun]
        exact ih hswitch
      | _ =>
        simp only [activate, hrun]
        exact hswitch
    · simp only [activate, hrun]
      exact ih hswitch

/-- **Setups can be opened**, with what switching a plugin keeps. -/
theorem keeps_setupOpen {I : Session → Prop} (hI : ∀ a new, Keeps I (plugSwitch a new)) (name : String)
    (force : Bool) (hs : I s) : I (setupOpen name force s).2 := by
  unfold setupOpen
  split
  · exact hs
  · exact hs
  · split
    · exact hs
    · exact keeps_activate hI _ hs

theorem setting_colours (he : s.setting = .ok e) (level : Int) (files : Files) :
    Session.setting { s with config := { s.config with accessibility := level }, files } =
    .ok { e with accessibility := level } := by
  obtain ⟨c, hc, heq⟩ := of_bind_eq_ok he
  obtain rfl := Except.ok.inj heq
  have hc' : Session.calculus { s with config := { s.config with accessibility := level }, files } = .ok c := hc
  simp only [Session.setting, hc', ok_bind, pure_ok]

/-- the colours can be changed, unless moves of the proof are to be made again -/
theorem Regular.colours (hs : s.Regular speller steady) (level : Int)
    (h : steady → s.proof.isSome → level = s.config.accessibility) :
    (exec (changeAccessibility level) s).2.Regular speller steady := by
  have ht : Regular speller steady { s with config := { s.config with accessibility := level } } := by
    refine ⟨⟨hs.usual.nodup, hs.usual.sockets⟩, hs.plugged, hs.shelf, hs.lexer, hs.lexicon, hs.files, fun p hp => ?_⟩
    obtain ⟨e, he, hkept⟩ := hs.proof p hp
    have hp' : s.proof = some p := hp
    refine ⟨_, setting_colours he level s.files, hkept.colours fun hsteady => ?_⟩
    rw [(calculus_of_setting he).2.2]
    exact h hsteady (by rw [hp']; rfl)
  rw [changeAccessibility, exec_bind, exec_modify]
  exact regular_writeConfig _ ht

/-! ### Starting and loading -/

/-- a proof started in a regular session -/
theorem Regular.start (hs : s.Regular speller steady) {st : Sentence} (he : s.setting = .ok e)
    (hp : Proof.start e st = .ok p) (hst : e.calculus = .signed → e.calculus.HasLexer s.lexer → ∃ a, st.Expresses a) :
    Regular speller steady { s with proof := some p } := by
  apply hs.of_proof
  intro q hq
  obtain rfl := Option.some.inj hq
  refine ⟨e, he, .start hp fun hsigned => ?_⟩
  obtain ⟨-, hlexer, -⟩ := calculus_of_setting he
  obtain ⟨root, hroot, -⟩ := of_bind_eq_ok hp
  rw [hsigned] at hroot
  have hx : signed.HasLexer e.lexer := hasLexer_of_prepare (hlexer ▸ hs.hasLexer) hroot
  rw [← hsigned] at hx
  exact ⟨hx, hst hsigned (hlexer ▸ hx)⟩

/-- what is kept when a proof is started, and when a branch is closed, is kept when a statement is typed -/
theorem keeps_newProof {I : Session → Prop} {text : String} (hclose : ∀ b, Keeps I (dealClosure b))
    (hstart : ∀ {s ts e p}, I s → s.lexer.tokenize text = .ok ts → s.setting = .ok e →
      e.calculus.checkSyntax (.ofTokens ts) = .ok none → Proof.start e (.ofTokens ts) = .ok p →
      I { s with proof := some p }) :
    Keeps I (newProof text) := by
  refine Keeps.get_bind fun s hs => ?_
  cases htokens : s.lexer.tokenize text with
  | error f => exact hs
  | ok ts =>
    simp only [exec_bind, exec_pure, exec_lift]
    cases hc : s.calculus with
    | error f => exact hs
    | ok c =>
      dsimp only
      rcases hchecked : c.checkSyntax (.ofTokens ts) with f | _ | m
      · exact hs
      · simp only [exec_bind, exec_lift]
        cases he : s.setting with
        | error f => exact hs
        | ok e =>
          dsimp only
          cases hp : Proof.start e (.ofTokens ts) with
          | error f => exact hs
          | ok p =>
            obtain rfl := Except.ok.inj ((calculus_of_setting he).1.symm.trans hc)
            have hkeeps : Keeps I (do let _ ← dealClosure p.branch; return none : Act (Option (List String))) :=
              (hclose p.branch).bind fun _ => .pure _
            simpa only [exec_bind, exec_set] using hkeeps _ (hstart hs htokens he hchecked hp)
      · simp only [exec_bind, exec_lift]
        cases s.assistant <;> exact hs

/-- **A proof of a typed statement** can be started. -/
theorem regular_newProof (text : String) : Keeps (Regular speller steady) (newProof text) :=
  keeps_newProof regular_dealClosure fun hs htokens he hchecked hp =>
    hs.start he hp fun _ hx => expresses_of_tokenize hx htokens hchecked

theorem proof_compileLexer (s : Session) : (exec compileLexer s).2.proof = s.proof := by
  simp only [Session.compileLexer, exec_bind, exec_get, exec_lift]
  cases s.makeLexer <;> rfl

theorem proof_plugSwitch (a new : String) (s : Session) : (exec (plugSwitch a new) s).2.proof = s.proof := by
  obtain ⟨f, hf⟩ | ⟨k, hk, hbound⟩ := plugSwitch_cases a new s
  · rw [hf]
  rw [exec_plugSwitch hk hbound]
  rcases exec (k.plug new) s.shelf with ⟨f | k', shelf⟩
  · cases f <;> rfl
  · dsimp only
    generalize Files.write _ _ _ = r
    rcases r with f | files
    · rfl
    · dsimp only
      split
      · exact proof_compileLexer _
      · rfl

/-- a plugin that was switched is in its socket and is noted, and the configuration is written -/
theorem plugSwitch_eq_ok (hs : s.Regular speller steady) (hp : s.proof = none) {n new : String} (hn : n ∈ socketNames)
    (h : exec (plugSwitch n new) s = (.ok (), t)) :
    ∃ k k' shelf files x, s.sockets.lookup n = some k ∧ exec (k.plug new) s.shelf = (.ok k', shelf) ∧
      s.files.write s.configPath (s.replug n k' new).config.toDatum = .ok files ∧
      t = { s.replug n k' new with shelf, files, lexer := x } ∧ if n = "Lexicon" then
      t.makeLexer = .ok x else x = s.lexer := by
  obtain ⟨k, hk⟩ : ∃ k, s.sockets.lookup n = some k := by
    rw [← hs.plugged.names] at hn
    exact lookup_isSome hn
  have hname := (standard_of_lookup hs hk).2.name
  have hfind : s.findSocket n = .ok k := by
    simp only [findSocket, hk]
    rfl
  rw [exec_plugSwitch hfind fun _ => hp, hname] at h
  rcases hplug : exec (k.plug new) s.shelf with ⟨f | k', shelf⟩
  · rw [hplug] at h
    cases f <;> cases h
  · rw [hplug] at h
    dsimp only at h
    generalize hwrite : Files.write _ _ _ = r at h
    rcases r with f | files
    · cases h
    dsimp only at h
    split at h
    · rename_i hlexicon
      simp only [Session.compileLexer, exec_bind, exec_get, exec_lift] at h
      generalize hmade : makeLexer _ = r at h
      cases r with
      | error f => cases h
      | ok x =>
        obtain ⟨-, rfl⟩ := Prod.mk.inj h
        exact ⟨k, k', shelf, files, x, hk, hplug, hwrite, rfl, by rw [if_pos hlexicon]; exact makeLexer_made hmade⟩
    · rename_i hlexicon
      obtain ⟨-, rfl⟩ := Prod.mk.inj h
      exact ⟨k, k', shelf, files, s.lexer, hk, hplug, hwrite, rfl, by rw [if_neg hlexicon]⟩

/-- **Plugins switched one after another** when there is no proof: if all is well, each is noted. -/
theorem regular_plugAll {l : List (String × String)} (hl : (l.map (·.1)).Nodup) (hsub : ∀ x ∈ l, x.1 ∈ socketNames)
    (hs : s.Regular speller steady) (hp : s.proof = none) {r : Outcome Unit}
    (h : exec (l.forM fun x => plugSwitch x.1 x.2) s = (r, t)) :
    t.Regular speller steady ∧ t.proof = none ∧ (r = .ok () → (∀ x ∈ l, t.config.plugins.lookup x.1 = some x.2) ∧
      ∀ n ∉ l.map (·.1), t.config.plugins.lookup n = s.config.plugins.lookup n) := by
  induction l generalizing s with
  | nil =>
    obtain ⟨rfl, rfl⟩ := Prod.mk.inj h
    exact ⟨hs, hp, fun _ => ⟨fun x hx => absurd hx List.not_mem_nil, fun _ _ => rfl⟩⟩
  | cons x l ih =>
    obtain ⟨hx, hl⟩ := List.nodup_cons.1 hl
    have hregular := regular_plugSwitch x.1 x.2 s hs
    have hproof := proof_plugSwitch x.1 x.2 s
    rw [List.forM_eq_forM, List.forM_cons, exec_bind] at h
    rcases hswitch : exec (plugSwitch x.1 x.2) s with ⟨f | _, s'⟩
    · rw [hswitch] at h hregular hproof
      obtain ⟨rfl, rfl⟩ := Prod.mk.inj h
      exact ⟨hregular, hproof.trans hp, fun hr => by cases hr⟩
    · rw [hswitch] at h hregular hproof
      have hconfig : s'.config.plugins = put x.1 x.2 s.config.plugins := by
        obtain ⟨k, k', shelf, files, y, -, -, -, rfl, -⟩ := plugSwitch_eq_ok hs hp (hsub x List.mem_cons_self) hswitch
        rfl
      obtain ⟨ht, hnone, hnoted⟩ := ih hl (fun y hy => hsub y (List.mem_cons_of_mem _ hy)) hregular (hproof.trans hp) h
      refine ⟨ht, hnone, fun hr => ?_⟩
      obtain ⟨hin, hout⟩ := hnoted hr
      refine ⟨fun y hy => ?_, fun n hn => ?_⟩
      · rcases List.mem_cons.1 hy with rfl | hy
        · rw [hout y.1 hx, hconfig, lookup_put, if_pos (beq_self_eq_true _)]
        · exact hin y hy
      · rw [List.map_cons, List.mem_cons, not_or] at hn
        rw [hout n hn.2, hconfig, lookup_put, if_neg (by simpa using hn.1)]

/-- a configuration that is read from a file of the program -/
theorem usual_of_stored {d : Datum} (hd : Stored d) {config : Config} (h : Config.ofDatum d = .ok config) :
    config.Usual := by
  cases hd with
  | text => cases h
  | config husual =>
    rw [Config.ofDatum_toDatum] at h
    obtain rfl := Except.ok.inj h
    exact husual
  | setup husual =>
    rw [Config.ofDatum, husual.field?_pluginsDatum (by decide)] at h
    cases h
  | proof => cases h

/-- a session at its start -/
def opened (name : String) (config : Config) (sockets : List (String × Socket)) (shelf : Shelf) (files : Files)
    (catalogue : Catalogue) (draws : Draws) (lexer : Lexer) : Session :=
  { configName := name, config, sockets, shelf, files, catalogue, draws, lexer }

/-- how a session starts: with the configuration in its file, which is written if there is none,
with sockets, and with a lexer -/
theorem start_eq (name : String) (files : Files) (shelf : Shelf) (catalogue : Catalogue) (draws : Draws)
    (speller : Speller) : Session.start name files shelf catalogue draws speller =
      (if files.isFile ("config/" ++ name) then pure files else files.write ("config/" ++ name)
        Config.initial.toDatum) >>=
      fun w => do
        let config ← Config.ofDatum (← w.read ("config/" ++ name))
        let ks ← (exec (makeSockets config) shelf).1
        let h := (exec (makeSockets config) shelf).2
        let x ← (opened name config ks h w catalogue draws { speller }).makeLexer
        return opened name config ks h w catalogue draws x := by
  unfold Session.start
  dsimp only
  split <;> rfl

/-- **A session that starts** with files that the program wrote. -/
theorem regular_start {name : String} {files : Files} {shelf : Shelf} {catalogue : Catalogue} {draws : Draws}
    (hfiles : ∀ f ∈ files.files, Stored f.2) (hshelf : shelf.Proper)
    (h : Session.start name files shelf catalogue draws speller = .ok s) : s.Regular speller steady := by
  rw [start_eq] at h
  obtain ⟨w, hw, h⟩ := of_bind_eq_ok h
  obtain ⟨d, hd, h⟩ := of_bind_eq_ok h
  obtain ⟨config, hconfig, h⟩ := of_bind_eq_ok h
  obtain ⟨ks, hks, h⟩ := of_bind_eq_ok h
  obtain ⟨x, hx, h⟩ := of_bind_eq_ok h
  obtain rfl := Except.ok.inj h
  have hw' : ∀ f ∈ w.files, Stored f.2 := by
    split at hw
    · rwa [← Except.ok.inj hw]
    · exact Files.stored_of_write hfiles (.config Config.usual_initial) hw
  have husual := usual_of_stored (Files.stored_of_read hw' hd) hconfig
  obtain ⟨hproper, hplugged⟩ := yields_makeSockets config shelf hshelf
  have hplugged := hplugged ks hks
  -- the lexer could not be made without a lexicon
  obtain ⟨p, c, hp, -, -, hc⟩ := makeLexer_eq_ok_iff.1 hx
  obtain ⟨k, hk, hplugin⟩ := plugin_eq_ok hp
  exact ⟨husual, hplugged, hproper, ⟨c, hc⟩, hplugged.noted _ (mem_of_lookup_eq hk) (by rw [hplugin]; rfl), hw',
    fun p hp => by cases hp⟩

end Session

end TableauTutor

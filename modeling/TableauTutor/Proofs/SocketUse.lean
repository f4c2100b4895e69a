import TableauTutor.Proofs.Plugging

/-!
Sockets in use. Plugins are put into a socket, or fail to be, and the socket is unplugged, while the folders of plugins
and what was read from them may change at any time. What a socket asks of a function is looked up under the name that
the function was declared under, which need not be the name that the socket calls it by.

- `isPlugged_run`: when a socket says that it is plugged, and when it gives a plugin.
- `connected_run`: what is known of the plugin in a socket.
-/

namespace TableauTutor

namespace Outcome

variable {α β : Type} {f : Fault} {a b : α}

theorem throw_ne_ok : (throw f : Outcome α) ≠ .ok a := nofun

theorem pure_eq_ok_iff : (pure a : Outcome α) = .ok b ↔ a = b := ⟨Except.ok.inj, congrArg Except.ok⟩

theorem bind_eq_ok_iff {x : Outcome α} {f : α → Outcome β} {b : β} :
    x >>= f = .ok b ↔ ∃ a, x = .ok a ∧ f a = .ok b := by
  refine ⟨of_bind_eq_ok, ?_⟩
  rintro ⟨a, rfl, hb⟩
  exact hb

theorem forM_eq_ok_iff {f : α → Outcome Unit} {xs : List α} : xs.forM f = .ok () ↔ ∀ x ∈ xs, f x = .ok () := by
  induction xs with
  | nil => simp [List.forM, pure_eq_ok_iff]
  | cons x xs ih =>
    change (f x >>= fun _ => xs.forM f) = .ok () ↔ _
    rw [List.forall_mem_cons, ← ih, bind_eq_ok_iff]
    exact ⟨fun ⟨_, hx, hxs⟩ => ⟨hx, hxs⟩, fun ⟨hx, hxs⟩ => ⟨(), hx, hxs⟩⟩

end Outcome

theorem Datum.beq_text_iff {d : Datum} {s : String} : (d == .text s) = true ↔ d = .text s := by
  change Datum.same d (.text s) = true ↔ d = .text s
  cases d <;> simp [Datum.same, Datum.number?]

namespace Plugin

variable {p : Plugin} {n : String}

/-- the name that something was declared under -/
def Callable.own : Callable → String
  | function f => f.own
  | error name => name

theorem mem_names_of_callable? {f : Callable} (h : p.callable? n = some f) : n ∈ p.names := by
  unfold callable? at h
  unfold names
  simp only [List.mem_append]
  split at h
  · rename_i hfunction
    exact .inl (.inr (List.mem_map_of_mem (f := (·.1)) (mem_of_lookup_eq hfunction)))
  · split at h
    · rename_i herror
      exact .inr (List.contains_iff_mem.1 herror)
    · cases h

theorem eq_of_callable?_error {own : String} (h : p.callable? n = some (.error own)) : own = n := by
  unfold callable? at h
  split at h
  · cases h
  · split at h
    · exact (Callable.error.inj (Option.some.inj h)).symm
    · cases h

end Plugin

namespace Socket

open Outcome

variable {k k₀ k₁ k' : Socket} {p : Plugin} {n name : String} {h h' : Shelf}

/-! ## Checks -/

theorem checkName_iff {message : String} : k.checkName p message = .ok () ↔ p.socket = some (.text k.name) := by
  unfold checkName
  cases p.socket with
  | none => simp [throw_ne_ok]
  | some d =>
    rw [Option.some.injEq, ← Datum.beq_text_iff]
    dsimp only
    split
    · simp_all [pure_eq_ok_iff]
    · simp_all [throw_ne_ok]

/-- the plugin has the version of the socket, but for the last of three numbers -/
def SameVersion (k : Socket) (p : Plugin) : Prop :=
  ∃ text v, p.version = some (.text text) ∧ readVersion text = .ok v ∧ v.length = 3 ∧ v.dropLast = k.version.dropLast

theorem checkVersion_iff {message : String} : k.checkVersion p message = .ok () ↔ k.SameVersion p := by
  unfold checkVersion SameVersion
  split
  · rename_i hnone
    simp [hnone, throw_ne_ok]
  · rename_i text htext
    rw [bind_eq_ok_iff]
    constructor
    · rintro ⟨v, hv, hchecks⟩
      by_cases hlen : v.length = 3
      · by_cases hsame : v.dropLast = k.version.dropLast
        · exact ⟨text, v, htext, hv, hlen, hsame⟩
        · rw [if_neg (by simpa using hlen), if_pos hsame] at hchecks
          cases hchecks
      · rw [if_pos hlen] at hchecks
        cases hchecks
    · rintro ⟨text', v, htext', hv, hlen, hsame⟩
      rw [htext] at htext'
      cases htext'
      exact ⟨v, hv, by simp [hlen, hsame, pure_eq_ok_iff]⟩
  · rename_i d hne hd
    refine iff_of_false throw_ne_ok ?_
    rintro ⟨text, v, heq, -⟩
    exact hne text (Option.some.inj (hd.symm.trans heq))

/-- a function is compared with what the socket asks for under the name that the function was declared under -/
theorem checkFunction_iff {f : Plugin.Callable} :
    k.checkFunction f = .ok () ↔ ∀ proper, k.functions.lookup f.own = some proper → f = .function ⟨f.own, proper⟩ := by
  cases f with
  | error own =>
    simp only [checkFunction, Plugin.Callable.own]
    cases k.functions.lookup own <;> simp [throw_ne_ok, pure_eq_ok_iff]
  | function f =>
    obtain ⟨own, arguments, result⟩ := f
    simp only [checkFunction, Plugin.Callable.own]
    cases k.functions.lookup own with
    | none => simp [pure_eq_ok_iff]
    | some proper =>
      obtain ⟨arguments', result'⟩ := proper
      by_cases harguments : arguments = arguments' <;> by_cases hresult : result = result' <;>
        simp [harguments, hresult, throw_ne_ok, pure_eq_ok_iff]

/-- every function that the socket asks for is there; it is annotated as the socket asks under the name that the
function was declared under, if it asks for anything under that name -/
def SameFunctions (k : Socket) (p : Plugin) : Prop :=
  ∀ n sig, k.functions.lookup n = some sig → ∃ own found, p.callable? n = some (.function ⟨own, found⟩) ∧
    ∀ proper, k.functions.lookup own = some proper → found = proper

theorem checkFunctions_iff : k.checkFunctions p = .ok () ↔ k.dummy = false ∧ k.SameFunctions p := by
  unfold checkFunctions
  cases k.dummy with
  | true => exact iff_of_false nofun (by simp)
  | false =>
    simp only [Bool.false_eq_true, if_false, true_and]
    constructor
    · intro hok n sig hsig
      split at hok
      · cases hok
      have hn := forM_eq_ok_iff.1 hok (n, sig) (mem_of_lookup_eq hsig)
      cases hf : p.callable? n with
      | none =>
        rw [hf] at hn
        cases hn
      | some f =>
        rw [hf] at hn
        have hcheck := checkFunction_iff.1 hn
        cases f with
        | function f =>
          refine ⟨f.own, f.signature, rfl, fun proper hproper => ?_⟩
          exact congrArg Declaration.signature (Plugin.Callable.function.inj (hcheck proper hproper))
        | error own =>
          obtain rfl := Plugin.eq_of_callable?_error hf
          cases hcheck sig hsig
    · intro hsame
      have hlacking : (k.functions.map (·.1)).filter (fun n => !p.names.contains n) = [] := by
        refine List.filter_eq_nil_iff.2 (List.forall_mem_map.2 fun x hx => ?_)
        obtain ⟨sig, hsig⟩ := lookup_isSome (List.mem_map_of_mem hx)
        obtain ⟨own, found, hf, -⟩ := hsame _ _ hsig
        simpa using Plugin.mem_names_of_callable? hf
      rw [hlacking]
      refine forM_eq_ok_iff.2 fun x hx => ?_
      obtain ⟨sig, hsig⟩ := lookup_isSome (List.mem_map_of_mem hx)
      obtain ⟨own, found, hf, hproper⟩ := hsame _ _ hsig
      rw [hf]
      exact checkFunction_iff.2 fun proper h => by rw [hproper proper h]; rfl

/-- what the socket checks of a plugin -/
structure Passes (k : Socket) (p : Plugin) : Prop where
  socket : p.socket = some (.text k.name)
  version : k.SameVersion p
  functions : k.SameFunctions p

/-! ## An attempt to plug something in -/

theorem plug_refused (hk : k.accepts = false) (name : String) :
    k.plug name = throw (.wrongKind "'NoneType' object is not callable") := by
  unfold plug
  rw [hk]
  rfl

theorem plug_dummy (hk : k.accepts = true) (hdummy : k.dummy = true) (name : String) : k.plug name = pure k := by
  unfold plug
  rw [hk, if_neg (by simp), if_pos hdummy]

theorem plug_reading (hk : k.accepts = true) (hdummy : k.dummy = false) (name : String) :
    k.plug name = k.fetch (Text.withoutEnd ".py" name) >>= k.receive (Text.withoutEnd ".py" name) := by
  unfold plug
  rw [if_neg (by simp [hk]), if_neg (by simp [hdummy])]

/-- **What a socket takes**: exactly what passes. -/
theorem exec_receive_iff (hdummy : k.dummy = false) :
    exec (k.receive name p) h = (.ok k', h') ↔ k.Passes p ∧ k' = k.hold name p ∧ h' = h := by
  unfold receive
  constructor
  · intro hrun
    cases hsocket : p.socket with
    | none =>
      rw [hsocket] at hrun
      cases hrun
    | some meant =>
      rw [hsocket] at hrun
      obtain ⟨⟨⟩, hname, hrun⟩ := exists_of_exec_lift hrun
      cases hversion : p.version with
      | none =>
        rw [hversion] at hrun
        cases hrun
      | some version =>
        rw [hversion] at hrun
        obtain ⟨⟨⟩, hsame, hrun⟩ := exists_of_exec_lift hrun
        obtain ⟨⟨⟩, hfunctions, hrun⟩ := exists_of_exec_lift hrun
        cases hrun
        exact ⟨⟨checkName_iff.1 hname, checkVersion_iff.1 hsame, (checkFunctions_iff.1 hfunctions).2⟩, rfl, rfl⟩
  · rintro ⟨hpasses, rfl, rfl⟩
    obtain ⟨text, v, hversion, -⟩ := hpasses.version
    simp only [hpasses.socket, hversion, exec_bind, exec_lift, checkName_iff.2 hpasses.socket,
      checkVersion_iff.2 hpasses.version, checkFunctions_iff.2 ⟨hdummy, hpasses.functions⟩, exec_pure]

/-- **An attempt to plug something in** succeeds exactly if what is read passes. -/
theorem exec_plug_iff (hk : k.accepts = true) (hdummy : k.dummy = false) :
    exec (k.plug name) h = (.ok k', h') ↔ ∃ p, exec (k.fetch (Text.withoutEnd ".py" name)) h =
    (.ok p, h') ∧ k.Passes p ∧ k' = k.hold (Text.withoutEnd ".py" name) p := by
  rw [plug_reading hk hdummy, exec_bind]
  rcases exec (k.fetch (Text.withoutEnd ".py" name)) h with ⟨f | p, t⟩
  · simp
  · simp only [exec_receive_iff hdummy]
    constructor
    · rintro ⟨hpasses, hk', rfl⟩
      exact ⟨p, rfl, hpasses, hk'⟩
    · rintro ⟨q, hq, hpasses, hk'⟩
      cases hq
      exact ⟨hpasses, hk', rfl⟩

/-! ## New sockets -/

/-- what a new socket is like. It holds a plugin if one was named, unless it is a dummy -/
structure Made (n plugged : String) (d : Bool) (k : Socket) : Prop where
  name : k.name = n
  dummy : k.dummy = d
  accepts : k.accepts = true
  plugin : k.plugin.isSome = true ↔ d = false ∧ plugged ≠ ""
  passes : ∀ p, k.plugin = some p → k.Passes p

theorem yields_functions (k : Socket) (file : String) :
    Yields (fun _ => True) (k.readTemplate file) fun k' => ∃ template functions,
    k' = { k with template, functions } := by
  unfold readTemplate
  refine Yields.get.bind fun h _ => ?_
  dsimp only
  cases h.folders.lookup k.folderName with
  | none => exact .throw _
  | some fs =>
    refine .ite (.throw_bind _ _) ((Yields.of_keeps fun _ _ => trivial).bind fun p _ => ?_)
    refine (Yields.of_keeps (Keeps.lift _)).bind fun _ _ => ?_
    cases p.socket with
    | none => exact .throw _
    | some meant =>
      refine (Yields.of_keeps (Keeps.lift _)).bind fun _ _ => (Yields.of_keeps (Keeps.lift _)).bind fun fs _ => .pure ?_
      exact ⟨_, _, rfl⟩

/-- the plugin that is named for a new socket is put in at once -/
theorem yields_plugged {plugged : String} (hk : k.accepts = true) (hnone : k.plugin = none) :
    Yields (fun _ => True) (if plugged.isEmpty then pure k else k.plug plugged) (Made k.name plugged k.dummy) := by
  split
  · rename_i hempty
    obtain rfl : plugged = "" := String.isEmpty_iff.1 hempty
    exact .pure ⟨rfl, rfl, hk, by simp [hnone], by simp [hnone]⟩
  · rename_i hne
    rw [String.isEmpty_iff] at hne
    cases hdummy : k.dummy with
    | true =>
      rw [plug_dummy hk hdummy]
      exact .pure ⟨rfl, hdummy, hk, by simp [hnone], by simp [hnone]⟩
    | false =>
      intro h _
      refine ⟨trivial, fun k' hk' => ?_⟩
      obtain ⟨p, -, hpasses, rfl⟩ := (exec_plug_iff hk hdummy).1 (Prod.ext hk' rfl)
      refine ⟨rfl, hdummy, hk, by simp [hold, hne], fun q hq => ?_⟩
      obtain rfl := Option.some.inj hq
      exact ⟨hpasses.socket, hpasses.version, hpasses.functions⟩

/-- **New sockets.** -/
theorem yields_made (name : String) (place : PluginFolder) (version : String) (need : Need) (plugged : String)
    (dummy : Bool) : Yields (fun _ => True) (make name place version need plugged dummy) (Made name plugged dummy) := by
  unfold make
  cases place
  case relative => exact .throw_bind _ _
  case' folder path =>
    refine Yields.get.bind fun h _ => .ite ((Yields.of_keeps (Keeps.change fun _ _ => trivial)).bind fun _ _ => ?_) ?_
  -- the folder is there, whether it had to be made or not
  all_goals
    refine (Yields.of_keeps (Keeps.lift _)).bind fun v _ => .ite (.throw_bind _ _) ?_
    cases need with
    | functions fs => exact yields_plugged rfl rfl
    | template file =>
      refine (yields_functions _ file).bind fun k hk => ?_
      obtain ⟨template, functions, rfl⟩ := hk
      exact yields_plugged rfl rfl

/-! ## Events -/

/-- what happens to a socket: an attempt to plug something in, unplugging, or a change of the folders and of what was
read from them, whatever it is -/
inductive Event where
  | plug (name : String)
  | unplug
  | shelve (h : Shelf)

/-- what an event leaves of a socket and a shelf; an attempt that fails leaves the socket as it was -/
def step (x : Socket × Shelf) : Event → Socket × Shelf
  | .plug name =>
    match exec (x.1.plug name) x.2 with
    | (.ok k, h) => (k, h)
    | (.error _, h) => (x.1, h)
  | .unplug => (x.1.unplug, x.2)
  | .shelve h => (x.1, h)

/-- events one after another -/
def run (x : Socket × Shelf) (events : List Event) : Socket × Shelf := events.foldl step x

/-- the event is an attempt to plug something in that succeeds -/
def Succeeds (x : Socket × Shelf) (e : Event) : Prop :=
  ∃ name k h, e = .plug name ∧ exec (x.1.plug name) x.2 = (.ok k, h)

/-- one of the events is an attempt to plug something in that succeeds -/
def Took : Socket × Shelf → List Event → Prop
  | _, [] => False
  | x, e :: events => Succeeds x e ∨ Took (step x e) events

/-- the socket is as it was, but for what is plugged in and whether it can be plugged -/
def Stays (k₀ k : Socket) : Prop := k = { k₀ with plugin := k.plugin, pluginName := k.pluginName, accepts := k.accepts }

namespace Stays

theorem refl (k : Socket) : Stays k k := rfl

theorem trans (h : Stays k₀ k₁) (h' : Stays k₁ k) : Stays k₀ k := by
  rw [Stays] at h h' ⊢
  rw [h', h]

theorem hold (h : Stays k₀ k) (name : String) (p : Plugin) : Stays k₀ (k.hold name p) := by
  rw [Stays] at h ⊢
  rw [h]
  rfl

theorem unplug (h : Stays k₀ k) : Stays k₀ k.unplug := by
  rw [Stays] at h ⊢
  rw [h]
  rfl

theorem passes_iff (h : Stays k₀ k) : k.Passes p ↔ k₀.Passes p := by
  rw [h]
  constructor <;> exact fun ⟨hsocket, hversion, hfunctions⟩ => ⟨hsocket, hversion, hfunctions⟩

theorem fetch_eq (h : Stays k₀ k) (name : String) : k.fetch name = k₀.fetch name := by
  rw [h]
  rfl

theorem plug_eq (h : Stays k₀ k) (haccepts : k.accepts = k₀.accepts) (hdummy : k₀.dummy = false) (name : String) :
    k.plug name = k₀.plug name := by
  rw [h, haccepts]
  obtain ⟨n, place, version, template, functions, plugin, pluginName, accepts, dummy⟩ := k₀
  obtain rfl : dummy = false := hdummy
  rfl

end Stays

/-- **What one event does**: the socket is unplugged, it stays as it is, or it takes something that passes. -/
theorem step_cases (x : Socket × Shelf) (e : Event) :
    e = .unplug ∧ (step x e).1 = x.1.unplug ∨
    e ≠ .unplug ∧ (step x e).1 = x.1 ∧ (x.1.dummy = false → ¬ Succeeds x e) ∨
    ∃ name p, e = .plug name ∧ Succeeds x e ∧ x.1.dummy = false ∧ x.1.Passes p ∧
      (step x e).1 = x.1.hold (Text.withoutEnd ".py" name) p := by
  cases e with
  | unplug => exact .inl ⟨rfl, rfl⟩
  | shelve h => exact .inr (.inl ⟨by simp, rfl, fun _ ⟨_, _, _, heq, _⟩ => by cases heq⟩)
  | plug name =>
    right
    rcases hrun : exec (x.1.plug name) x.2 with ⟨f | k, h⟩
    · refine .inl ⟨by simp, by simp only [step, hrun], fun _ ⟨n, k', h', heq, hok⟩ => ?_⟩
      cases heq
      rw [hrun] at hok
      cases hok
    · have hsucceeds : Succeeds x (.plug name) := ⟨name, k, h, rfl, hrun⟩
      cases haccepts : x.1.accepts with
      | false =>
        rw [plug_refused haccepts] at hrun
        cases hrun
      | true =>
        cases hdummy : x.1.dummy with
        | true => exact .inl ⟨by simp, by simp [step, plug_dummy haccepts hdummy], by simp⟩
        | false =>
          obtain ⟨p, -, hpasses, rfl⟩ := (exec_plug_iff haccepts hdummy).1 hrun
          exact .inr ⟨name, p, rfl, hsucceeds, rfl, hpasses, by simp only [step, hrun]⟩

/-- what events leave of a socket -/
structure After (x : Socket × Shelf) (events : List Event) (k : Socket) : Prop where
  stays : Stays x.1 k
  accepts : k.accepts = true ↔ x.1.accepts = true ∧ .unplug ∉ events
  plugin : x.1.dummy = false → (k.plugin.isSome = true ↔ x.1.plugin.isSome = true ∨ Took x events)
  dummy : x.1.dummy = true → k = { x.1 with accepts := k.accepts }
  passes : (∀ p, x.1.plugin = some p → x.1.Passes p) → ∀ p, k.plugin = some p → x.1.Passes p

theorem after_step (x : Socket × Shelf) (e : Event) : After x [e] (step x e).1 := by
  have htook : Took x [e] ↔ Succeeds x e := by simp [Took]
  rcases step_cases x e with ⟨rfl, hk⟩ | ⟨hne, hk, hnot⟩ | ⟨name, p, rfl, hsucceeds, hreads, hp, hk⟩
  · have hnot : ¬ Succeeds x .unplug := fun ⟨_, _, _, heq, _⟩ => by cases heq
    rw [hk]
    exact ⟨.unplug (.refl _), by simp [unplug], fun _ => by simp [unplug, htook, hnot], fun _ => rfl, fun h => h⟩
  · rw [hk]
    exact ⟨.refl _, by simp [hne.symm], fun hdummy => by simp [htook, hnot hdummy], fun _ => rfl, fun h => h⟩
  · rw [hk]
    refine ⟨.hold (.refl _) _ _, by simp [hold], fun _ => by simp [hold, htook, hsucceeds], fun hdummy => ?_,
      fun _ q hq => ?_⟩
    · rw [hreads] at hdummy
      cases hdummy
    · rwa [← Option.some.inj hq]

theorem After.trans {x : Socket × Shelf} {e : Event} {events : List Event} (h : After x [e] (step x e).1)
    (h' : After (step x e) events k) : After x (e :: events) k := by
  have hdummy : (step x e).1.dummy = x.1.dummy := by rw [h.stays]
  have htook : Took x (e :: events) ↔ Took x [e] ∨ Took (step x e) events := by simp [Took]
  refine ⟨h.stays.trans h'.stays, ?_, fun hd => ?_, fun hd => ?_, fun hx p hp => ?_⟩
  · rw [h'.accepts, h.accepts]
    simp [and_assoc]
  · rw [h'.plugin (hdummy.trans hd), h.plugin hd, htook, or_assoc]
  · have hlater := h'.dummy (hdummy.trans hd)
    rwa [h.dummy hd] at hlater
  · have hfirst (q : Plugin) (hq : (step x e).1.plugin = some q) := h.stays.passes_iff.2 (h.passes hx q hq)
    exact h.stays.passes_iff.1 (h'.passes hfirst p hp)

/-- **Events one after another.** -/
theorem after_run (x : Socket × Shelf) (events : List Event) : After x events (run x events).1 := by
  induction events generalizing x with
  | nil => exact ⟨.refl _, by simp [run], by simp [run, Took], fun _ => rfl, fun h => h⟩
  | cons e events ih => exact (after_step x e).trans (ih (step x e))

/-! ## Is a socket plugged -/

theorem exists_call_iff : (∃ p, k.call = .ok p) ↔ k.dummy = false ∧ k.plugin.isSome = true := by
  unfold call
  cases k.dummy with
  | true => simp [throw_ne_ok]
  | false => cases k.plugin <;> simp [throw_ne_ok, pure_eq_ok_iff]

theorem call_of_not_exists (hdummy : k.dummy = false) (h : ¬ ∃ p, k.call = .ok p) :
    k.call = .error (.plugin (.noPlugin k.name)) := by
  have hnone : k.plugin = none := by simpa [exists_call_iff, hdummy] using h
  rw [call, hdummy, hnone]
  rfl

/-- **Whether a socket is plugged.** Let a socket be made, with or without a plugin, and let anything happen to it
afterwards. It says that it is plugged until it is unplugged for the first time, and as long as it says so something can
be plugged in, just as in the beginning; after that nothing can be plugged in any more. It gives a plugin from the first
time that one was put in, also after it was unplugged. So what it says is right exactly if it was never unplugged and
took a plugin, or was unplugged and never took one. -/
theorem isPlugged_run {place : PluginFolder} {version plugged : String} {need : Need} {dummy : Bool} {h₀ h₁ : Shelf}
    (hmade : exec (make name place version need plugged dummy) h₀ = (.ok k₀, h₁)) (events : List Event) :
    let k := (run (k₀, h₁) events).1
    let took := dummy = false ∧ (plugged ≠ "" ∨ Took (k₀, h₁) events)
    (k.isPlugged = true ↔ .unplug ∉ events) ∧
    ((∃ p, k.call = .ok p) ↔ took) ∧
    (dummy = false → ¬ took → k.call = .error (.plugin (.noPlugin name))) ∧
    ((k.isPlugged = true ↔ ∃ p, k.call = .ok p) ↔ (.unplug ∉ events ↔ took)) ∧
    (.unplug ∉ events → ∀ n h, exec (k.plug n) h = exec (k₀.plug n) h) ∧
    (.unplug ∈ events → ∀ n h, exec (k.plug n) h = (.error (.wrongKind "'NoneType' object is not callable"), h)) := by
  intro k took
  have hnew := (yields_made name place version need plugged dummy h₀ trivial).2 k₀ (by rw [hmade])
  have hafter : After (k₀, h₁) events k := after_run (k₀, h₁) events
  have hplugged : k.isPlugged = true ↔ .unplug ∉ events := hafter.accepts.trans (and_iff_right hnew.accepts)
  have hdummy : k.dummy = dummy := by rw [hafter.stays, hnew.dummy]
  have hcall : (∃ p, k.call = .ok p) ↔ took := by
    rw [exists_call_iff, hdummy]
    refine and_congr_right fun hreads => ?_
    rw [hafter.plugin (hnew.dummy.trans hreads), hnew.plugin, and_iff_right hreads]
  refine ⟨hplugged, hcall, fun hreads hnot => ?_, by rw [hplugged, hcall], fun hmem n h => ?_, fun hmem n h => ?_⟩
  · have hname : k.name = name := by rw [hafter.stays, hnew.name]
    rw [← hname]
    exact call_of_not_exists (hdummy.trans hreads) fun hex => hnot (hcall.1 hex)
  · have haccepts : k.accepts = k₀.accepts := (hplugged.2 hmem).trans hnew.accepts.symm
    cases hreads : k₀.dummy with
    | true => rw [hafter.dummy hreads, haccepts]
    | false => rw [hafter.stays.plug_eq haccepts hreads]
  · have hrefuses : k.accepts = false := Bool.eq_false_iff.2 fun haccepts => hplugged.1 haccepts hmem
    rw [plug_refused hrefuses]
    rfl

/-- a function of one argument that can be called by a second name -/
def renamed : Plugin :=
  let add : Declaration := ⟨"add", ⟨["int"], "int"⟩⟩
  { socket := some (.text "calc"), version := some (.text "0.2.1"), functions := [("add", add), ("sub", add)] }

/-- a shelf with one file -/
def oneFile : Shelf := { folders := [("plugins", [("other.py", renamed)])] }

/-- a socket that asks for a function of two arguments -/
def subtracting : Socket :=
  { name := "calc", place := .folder "plugins", version := [0, 2, 0], functions := [("sub", ⟨["int", "int"], "int"⟩)] }

theorem make_subtracting :
    exec (make "calc" (.folder "plugins") "0.2.0" (.functions [("sub", ⟨["int", "int"], "int"⟩)]) "" false) oneFile =
      (.ok subtracting, oneFile) := by rfl

theorem plug_subtracting : exec (subtracting.plug "other.py") oneFile =
    (.ok (subtracting.hold "other" { renamed with name := "other.py" }),
      { oneFile with cache := [(("calc", "other"), { renamed with name := "other.py" })] }) := by rfl

theorem isPlugged_run_unplugged :
    exec (make "calc" (.folder "plugins") "0.2.0" (.functions [("sub", ⟨["int", "int"], "int"⟩)]) "" false) oneFile =
      (.ok subtracting, oneFile) ∧
    (subtracting.isPlugged = true ∧ subtracting.call = .error (.plugin (.noPlugin "calc"))) ∧
    (run (subtracting, oneFile) [.plug "other.py", .unplug]).1.isPlugged = false ∧
    ∃ p, (run (subtracting, oneFile) [.plug "other.py", .unplug]).1.call = .ok p := by
  obtain ⟨hplugged, -, hnone, -⟩ := isPlugged_run make_subtracting []
  obtain ⟨hunplugged, hcall, -⟩ := isPlugged_run make_subtracting [.plug "other.py", .unplug]
  refine ⟨make_subtracting, ⟨hplugged.2 (by simp), hnone rfl (by simp [Took])⟩, ?_, hcall.2 ⟨rfl, .inr (.inl ?_)⟩⟩
  · exact Bool.eq_false_iff.2 fun h => hunplugged.1 h (by simp)
  · exact ⟨_, _, _, rfl, plug_subtracting⟩

/-! ## What is connected -/

/-- the plugin is meant for the socket, has its version but for the last number, and has, under every name that the
socket asks for, a function with the annotations that it asks for -/
structure Conforms (k : Socket) (p : Plugin) : Prop where
  socket : p.socket = some (.text k.name)
  version : k.SameVersion p
  functions : ∀ n sig, k.functions.lookup n = some sig → ∃ own, p.callable? n = some (.function ⟨own, sig⟩)

/-- what passes conforms, but for functions that are called by a second name -/
theorem Passes.conforms_iff (hp : k.Passes p) : k.Conforms p ↔ ∀ n sig own found, k.functions.lookup n = some sig →
    p.callable? n = some (.function ⟨own, found⟩) → own ≠ n → found = sig := by
  constructor
  · intro hconforms n sig own found hsig hfound _
    obtain ⟨own', hown⟩ := hconforms.functions n sig hsig
    rw [hfound] at hown
    exact congrArg Declaration.signature (Plugin.Callable.function.inj (Option.some.inj hown))
  · intro hsecond
    refine ⟨hp.socket, hp.version, fun n sig hsig => ?_⟩
    obtain ⟨own, found, hfound, hproper⟩ := hp.functions n sig hsig
    by_cases hown : own = n
    · obtain rfl := hproper sig (hown ▸ hsig)
      exact ⟨own, hfound⟩
    · obtain rfl := hsecond n sig own found hsig hfound hown
      exact ⟨own, hfound⟩

/-- **What is connected.** Let a socket be made, with or without a plugin, and let anything happen to it afterwards. The
plugin in it is meant for it, has its version, and has all functions that it asks for; each of them is annotated as the
socket asks under the name that the function was declared under. So the plugin conforms exactly if the functions that it
has under a second name happen to be annotated in the right way. An attempt that fails leaves the socket as it was; one
that succeeds puts in what was read, and all that passes is taken. -/
theorem connected_run {place : PluginFolder} {version plugged : String} {need : Need} {dummy : Bool} {h₀ h₁ : Shelf}
    (hmade : exec (make name place version need plugged dummy) h₀ = (.ok k₀, h₁)) (events : List Event) :
    let k := (run (k₀, h₁) events).1
    (∀ p, k.plugin = some p → k₀.Passes p ∧ (k₀.Conforms p ↔ ∀ n sig own found, k₀.functions.lookup n = some sig →
      p.callable? n = some (.function ⟨own, found⟩) → own ≠ n → found = sig)) ∧
    (∀ n h f h', exec (k.plug n) h = (.error f, h') → step (k, h) (.plug n) = (k, h')) ∧
    (dummy = false → .unplug ∉ events → ∀ n h k' h', exec (k.plug n) h = (.ok k', h') ↔
      ∃ p, exec (k₀.fetch (Text.withoutEnd ".py" n)) h = (.ok p, h') ∧ k₀.Passes p ∧
      k' = k.hold (Text.withoutEnd ".py" n) p) := by
  intro k
  have hnew := (yields_made name place version need plugged dummy h₀ trivial).2 k₀ (by rw [hmade])
  have hafter : After (k₀, h₁) events k := after_run (k₀, h₁) events
  refine ⟨fun p hp => ?_, fun n h f h' herror => by simp only [step, herror], fun hreads hmem n h k' h' => ?_⟩
  · have hpasses := hafter.passes hnew.passes p hp
    exact ⟨hpasses, hpasses.conforms_iff⟩
  · have haccepts : k.accepts = true := hafter.accepts.2 ⟨hnew.accepts, hmem⟩
    have hdummy : k.dummy = false := by rw [hafter.stays, hnew.dummy, hreads]
    rw [exec_plug_iff haccepts hdummy, hafter.stays.fetch_eq]
    simp only [hafter.stays.passes_iff]

theorem connected_run_renamed :
    exec (make "calc" (.folder "plugins") "0.2.0" (.functions [("sub", ⟨["int", "int"], "int"⟩)]) "" false) oneFile =
      (.ok subtracting, oneFile) ∧
    ∃ p, (run (subtracting, oneFile) [.plug "other.py"]).1.plugin = some p ∧ subtracting.Passes p ∧
    ¬ subtracting.Conforms p := by
  have hplugin : (run (subtracting, oneFile) [.plug "other.py"]).1.plugin = some { renamed with name :=
      "other.py" } := by
    simp only [run, List.foldl, step, plug_subtracting, hold]
  obtain ⟨hpasses, hconforms⟩ := (connected_run make_subtracting [.plug "other.py"]).1 _ hplugin
  refine ⟨make_subtracting, _, hplugin, hpasses, fun h => ?_⟩
  have hsame := hconforms.1 h "sub" ⟨["int", "int"], "int"⟩ "add" ⟨["int"], "int"⟩ rfl rfl (by decide)
  exact absurd hsame (by decide)

end Socket

end TableauTutor

import Overseer.Proofs.Session.Handles

/-!
# Single entries

A change to the registry concerns the entry of one pid and leaves the others as they are. The entry
that a process has got it keeps, unless it is taken off, another process with its pid is tracked, or
a teardown takes all entries (`Session.Registers`).
-/

namespace Overseer

open World

namespace Registry

def besides (r : Registry) (pid : Int) : List Tracked := r.entries.filter (·.pid != pid)

/-- Nothing has been done but to the entry of a pid, and nothing at all without tracking. -/
def ChangedAt (pid : Int) (track : Bool) (before after : Registry) : Prop :=
  after.besides pid = before.besides pid ∧ (track = false → after = before)

def TracksAt (r : Registry) (pid : Int) (id : ProcessId) : Prop :=
  ∃ e, r.find? pid = some e ∧ e.process = id

instance (r : Registry) (pid : Int) (id : ProcessId) : Decidable (r.TracksAt pid id) :=
  decidable_of_iff ((r.find? pid).any (·.process == id) = true)
    (by simp [TracksAt, Option.any_eq_true])

variable {a b r : Registry} {standing : ProcessId → Standing} {entry : Tracked} {pid : Int}
  {id other : ProcessId}

theorem ChangedAt.refl {track : Bool} : ChangedAt pid track r r := ⟨rfl, fun _ => rfl⟩

theorem ChangedAt.trans {track : Bool} (h : ChangedAt pid track a b) (k : ChangedAt pid track b r) :
    ChangedAt pid track a r :=
  ⟨k.1.trans h.1, fun ht => (k.2 ht).trans (h.2 ht)⟩

theorem besides_place (entry : Tracked) (entries : List Tracked) :
    (place entry entries).filter (·.pid != entry.pid) = entries.filter (·.pid != entry.pid) := by
  induction entries with
  | nil => simp [place]
  | cons t rest ih =>
    rw [place]
    by_cases ht : t.pid = entry.pid
    · simp [ht]
    · simp [ht, ih]

theorem besides_register (r : Registry) (standing : ProcessId → Standing) (entry : Tracked) :
    (r.register standing entry).1.besides entry.pid = r.besides entry.pid := by
  unfold register
  split
  · split
    · rfl
    · exact besides_place entry r.entries
  · exact besides_place entry r.entries

theorem besides_unregister (r : Registry) (standing : ProcessId → Standing) (pid : Int)
    (id : ProcessId) : (r.unregister standing pid id).1.besides pid = r.besides pid := by
  unfold unregister
  split
  · split
    · simp [besides, List.filter_filter]
    · rfl
  · rfl

theorem find?_of_besides {q : Int} (h : a.besides pid = b.besides pid) (hne : q ≠ pid) :
    a.find? q = b.find? q := by
  have hfilter : ∀ r : Registry, (r.besides pid).find? (·.pid == q) = r.find? q := by
    intro r
    rw [besides, List.find?_filter, find?]
    congr 1
    funext t
    by_cases ht : t.pid = q
    · simp [ht, hne]
    · simp [ht]
  rw [← hfilter a, h, hfilter b]

theorem TracksAt.of_besides {q : Int} (h : b.TracksAt q id) (hb : a.besides pid = b.besides pid)
    (hne : q ≠ pid) : a.TracksAt q id := by
  obtain ⟨e, he, hid⟩ := h
  exact ⟨e, (find?_of_besides hb hne).trans he, hid⟩

theorem tracksAt_register (r : Registry) (standing : ProcessId → Standing) (entry : Tracked) :
    (r.register standing entry).1.TracksAt entry.pid entry.process := by
  have hplace : ∀ entries : List Tracked,
      (place entry entries).find? (·.pid == entry.pid) = some entry := by
    intro entries
    induction entries with
    | nil => simp [place]
    | cons t rest ih =>
      rw [place]
      by_cases ht : t.pid = entry.pid
      · simp [ht]
      · simpa [ht] using ih
  unfold register
  split
  next current hfind =>
    split
    next hsame => exact ⟨current, hfind, hsame⟩
    · exact ⟨entry, hplace _, rfl⟩
  · exact ⟨entry, hplace _, rfl⟩

/-- To track another process takes away the entry of a process only if they have the same pid. -/
theorem TracksAt.register (h : r.TracksAt pid id) (standing : ProcessId → Standing)
    (hother : entry.process ≠ id → entry.pid ≠ pid) :
    (r.register standing entry).1.TracksAt pid id := by
  by_cases hpid : entry.pid = pid
  · obtain rfl : entry.process = id := by
      by_contra hne
      exact hother hne hpid
    exact hpid ▸ tracksAt_register r standing entry
  · exact h.of_besides (besides_register r standing entry) (Ne.symm hpid)

theorem TracksAt.unregister (h : r.TracksAt pid id) (standing : ProcessId → Standing) (q : Int)
    (hne : other ≠ id) : (r.unregister standing q other).1.TracksAt pid id := by
  by_cases hpid : q = pid
  · subst hpid
    obtain ⟨e, he, rfl⟩ := h
    unfold Registry.unregister
    rw [he]
    dsimp only
    rw [if_neg (Ne.symm hne)]
    exact ⟨e, he, rfl⟩
  · exact h.of_besides (besides_unregister r standing q other) (Ne.symm hpid)

end Registry

namespace Fleet

variable {f : Fleet} {pid : Int} {id other : ProcessId} {p : Supervised}

theorem tracksAt_register (hp : f.process? id = some p) (standing : ProcessId → Standing) :
    (f.register standing id).registry.TracksAt p.pid id := by
  unfold register
  rw [hp]
  exact Registry.tracksAt_register f.registry standing (entryOf p id)

theorem besides_register (hp : f.process? id = some p) (standing : ProcessId → Standing) :
    (f.register standing id).registry.besides p.pid = f.registry.besides p.pid := by
  unfold register
  rw [hp]
  exact Registry.besides_register f.registry standing (entryOf p id)

theorem besides_unregister (hp : f.process? id = some p) (standing : ProcessId → Standing) :
    (f.unregister standing id).1.registry.besides p.pid = f.registry.besides p.pid := by
  unfold unregister
  rw [hp]
  exact Registry.besides_unregister f.registry standing p.pid id

theorem tracksAt_of_register (h : f.registry.TracksAt pid id) (standing : ProcessId → Standing)
    (hother : ∀ p, f.process? other = some p → other ≠ id → p.pid ≠ pid) :
    (f.register standing other).registry.TracksAt pid id := by
  unfold register
  cases hp : f.process? other with
  | none => exact h
  | some p =>
    have hentry : (entryOf p other).process ≠ id → (entryOf p other).pid ≠ pid := hother p hp
    exact h.register standing hentry

theorem tracksAt_of_unregister (h : f.registry.TracksAt pid id) (standing : ProcessId → Standing)
    (hne : other ≠ id) : (f.unregister standing other).1.registry.TracksAt pid id := by
  unfold unregister
  cases f.process? other with
  | none => exact h
  | some p => exact h.unregister standing p.pid hne

instance (f : Fleet) (id : ProcessId) : Decidable (f.Tracks id) :=
  decidable_of_iff (f.registry.entries.any (·.process == id) = true) (by simp [Tracks])

theorem Tracks.of_registry {g : Fleet} (h : g.Tracks id) (hr : g.registry = f.registry) :
    f.Tracks id := by
  obtain ⟨e, he, hid⟩ := h
  exact ⟨e, hr ▸ he, hid⟩

theorem tracks_of_register {standing : ProcessId → Standing}
    (h : (f.register standing other).Tracks id) : other = id ∨ f.Tracks id := by
  unfold register at h
  split at h
  · exact .inr h
  · obtain ⟨e, he, hid⟩ := h
    rcases Registry.mem_register he with rfl | he
    · exact .inl hid
    · exact .inr ⟨e, he, hid⟩

theorem tracks_of_unregister {standing : ProcessId → Standing}
    (h : (f.unregister standing other).1.Tracks id) : f.Tracks id := by
  unfold unregister at h
  split at h
  · exact h
  · obtain ⟨e, he, hid⟩ := h
    exact ⟨e, Registry.sublist_unregister.subset he, hid⟩

section

variable {g : Fleet} {settings : Settings} {held : ProcessId → Bool} {request : Request}
  {track : Bool} {failure : Failure}

theorem registry_startTracked_error
    (h : f.startTracked settings held request track = (g, .error failure)) :
    g.registry = f.registry := by
  have hr := Ledger.registry_start f settings request
  unfold startTracked at h
  rcases hs : f.start settings request with ⟨started, other | id⟩ <;> rw [hs] at h hr
  · obtain rfl := (Prod.mk.inj h).1
    exact hr
  · cases h

/-- A process that has been started is entered if and only if it is to be tracked. -/
theorem startTracked_ok (h : f.startTracked settings held request track = (g, .ok id)) :
    ∃ started standing, f.start settings request = (started, .ok id) ∧
      started.registry = f.registry ∧
      g = if track then started.register standing id else started := by
  have hr := Ledger.registry_start f settings request
  unfold startTracked at h
  rcases hs : f.start settings request with ⟨started, failure | new⟩ <;> rw [hs] at h hr
  · cases h
  · obtain ⟨hg, hid⟩ := Prod.mk.inj h
    obtain rfl := Except.ok.inj hid
    exact ⟨started, _, rfl, hr, hg.symm⟩

/-- A command that does not start as commands have to is not even tried. -/
theorem startTracked_usage {text : String}
    (h : f.startTracked settings held request track = (g, .error (.usage text))) : g = f := by
  have hspawn : ∀ launch, (Supervised.spawn settings launch f.scene).2 ≠ .error (.usage text) := by
    intro launch
    unfold Supervised.spawn
    split
    · split <;> nofun
    · nofun
  have hstart : f.start settings request = (g, .error (.usage text)) := by
    unfold startTracked at h
    split at h
    next hs => exact hs.trans h
    · cases h
  unfold start at hstart
  dsimp only at hstart
  split at hstart
  · exact (congrArg Prod.fst hstart).symm
  next launch _ =>
    split at hstart
    next hs =>
      cases hstart
      exact absurd (congrArg Prod.snd hs) (hspawn launch)
    · cases hstart

/-- To start a process touches no entry but the one that it gets, and none at all if it is not to be
tracked. -/
theorem changedAt_startTracked (h : f.startTracked settings held request track = (g, .ok id))
    (hp : g.process? id = some p) : Registry.ChangedAt p.pid track f.registry g.registry := by
  obtain ⟨started, standing, -, hr, rfl⟩ := startTracked_ok h
  cases track with
  | false => exact hr ▸ .refl
  | true =>
    rw [if_pos rfl] at hp ⊢
    rw [process?_register] at hp
    refine ⟨?_, nofun⟩
    rw [besides_register hp standing, hr]

theorem tracksAt_startTracked (h : f.startTracked settings held request true = (g, .ok id))
    (hp : g.process? id = some p) : g.registry.TracksAt p.pid id := by
  obtain ⟨started, standing, -, -, rfl⟩ := startTracked_ok h
  rw [if_pos rfl] at hp ⊢
  rw [process?_register] at hp
  exact tracksAt_register hp standing

end

end Fleet

namespace Session

inductive Registers (s : Session) : Command → Registry → Prop where
  | same {command : Command} : Registers s command s.fleet.registry
  | register {name : String} {h : Handle} (standing : ProcessId → Standing) :
      s.handle? name = some h →
      Registers s (.register name) (s.fleet.register standing h.process).registry
  | unregister {name : String} {h : Handle} (standing : ProcessId → Standing) :
      s.handle? name = some h →
      Registers s (.unregister name) (s.fleet.unregister standing h.process).1.registry
  | clear {command : Command} : command = .teardown ∨ command = .leave → Registers s command {}
  | launch {command : Command} {request : Request} {g : Fleet} {id : ProcessId}
      (standing : ProcessId → Standing) : s.launching? command = some (request, true) →
      s.fleet.start s.settings request = (g, .ok id) →
      Registers s command (g.register standing id).registry
  | overdue {command : Command} {request : Request} {g : Fleet} {id : ProcessId}
      (standing later : ProcessId → Standing) : s.launching? command = some (request, true) →
      s.fleet.start s.settings request = (g, .ok id) →
      Registers s command ((g.register standing id).unregister later id).1.registry

variable {s : Session} {command : Command} {r : Registry} {pid : Int} {id : ProcessId}

theorem Registers.of_same (h : r = s.fleet.registry) : s.Registers command r := h ▸ .same

theorem registers_start (s : Session) (peers : List Activity) (command : Command) :
    s.Registers command (start peers command s).1.fleet.registry := by
  cases hl : s.launching? command with
  | some asked =>
    obtain ⟨request, track⟩ := asked
    rcases hs : s.fleet.startTracked s.settings (s.holds peers) request track
      with ⟨g, failure | id⟩
    · rw [start_launching_error hl hs]
      exact .of_same (Fleet.registry_startTracked_error hs)
    · obtain ⟨started, standing, hstart, hr, hg⟩ := Fleet.startTracked_ok hs
      have hentered : s.Registers command g.registry := by
        cases track with
        | false => exact .of_same (hg ▸ hr)
        | true => exact hg ▸ .launch standing hl hstart
      obtain ⟨name, handle, answer, hbegun⟩ | ⟨r, rfl, rfl, -, hbegun⟩ := start_launching hl hs
      · rw [hbegun]
        exact hentered
      · rw [hbegun]
        change s.Registers command (r.poll g).1.registry
        obtain ⟨-, hp⟩ | ⟨⟨htracked, -⟩, later, hp⟩ := r.registry_poll g
        · exact hp ▸ hentered
        · rw [htracked] at hl hg
          rw [hp, hg]
          exact .overdue standing later hl hstart
  | none =>
    cases command with
    | start name request track => cases hl
    | run request limit check track => cases hl
    | register name =>
      simp only [start, withHandle]
      cases hh : s.handle? name with
      | none => exact .same
      | some handle => exact .register _ hh
    | unregister name =>
      simp only [start, withHandle]
      cases hh : s.handle? name with
      | none => exact .same
      | some handle => exact .unregister _ hh
    | teardown => exact Teardown.registry_start s.termLimit s.killLimit s.fleet ▸ .clear (.inl rfl)
    | leave => exact Teardown.registry_start s.termLimit s.killLimit s.fleet ▸ .clear (.inr rfl)
    | _ => exact .of_same (registry_start_idle s peers rfl)

/-- A command that begins does not take a process off, nor puts another one in its place. -/
structure Spares (s : Session) (pid : Int) (id : ProcessId) (command : Command) : Prop where
  stays : command ≠ .teardown ∧ command ≠ .leave
  unregister : ∀ name h, command = .unregister name → s.handle? name = some h → h.process ≠ id
  register : ∀ name h p, command = .register name → s.handle? name = some h →
    s.fleet.process? h.process = some p → h.process ≠ id → p.pid ≠ pid
  launch : ∀ request g new p, s.launching? command = some (request, true) →
    s.fleet.start s.settings request = (g, .ok new) → g.process? new = some p → p.pid ≠ pid

theorem ne_of_start {settings : Settings} {request : Request} {f g : Fleet} {new : ProcessId}
    (hstart : f.start settings request = (g, .ok new)) (hid : (f.process? id).isSome = true) :
    new ≠ id := by
  rintro rfl
  rw [(Fleet.spawned_start hstart).process] at hid
  cases hid

theorem tracksAt_of_start {settings : Settings} {request : Request} {f g : Fleet} {new : ProcessId}
    (hstart : f.start settings request = (g, .ok new)) (h : f.registry.TracksAt pid id) :
    g.registry.TracksAt pid id := by
  have hr := Ledger.registry_start f settings request
  rw [hstart] at hr
  exact hr ▸ h

theorem Registers.tracksAt (h : s.Registers command r) (hspares : s.Spares pid id command)
    (hid : (s.fleet.process? id).isSome = true) (htracks : s.fleet.registry.TracksAt pid id) :
    r.TracksAt pid id := by
  cases h with
  | same => exact htracks
  | @register name h standing hh =>
    exact Fleet.tracksAt_of_register htracks standing fun p => hspares.register name h p rfl hh
  | @unregister name h standing hh =>
    exact Fleet.tracksAt_of_unregister htracks standing (hspares.unregister name h rfl hh)
  | clear hc => exact absurd hc (not_or.mpr hspares.stays)
  | launch standing hl hstart =>
    exact Fleet.tracksAt_of_register (tracksAt_of_start hstart htracks) standing fun p hp _ =>
      hspares.launch _ _ _ p hl hstart hp
  | overdue standing later hl hstart =>
    refine Fleet.tracksAt_of_unregister ?_ later (ne_of_start hstart hid)
    exact Fleet.tracksAt_of_register (tracksAt_of_start hstart htracks) standing fun p hp _ =>
      hspares.launch _ _ _ p hl hstart hp

theorem Registers.tracks {f : Fleet} (h : s.Registers command f.registry)
    (hid : (s.fleet.process? id).isSome = true) (htracks : f.Tracks id) :
    s.fleet.Tracks id ∨ s.Hands id := by
  have hlaunch : ∀ {settings request g new} {standing : ProcessId → Standing},
      s.fleet.start settings request = (g, .ok new) →
      (g.register standing new).Tracks id → s.fleet.Tracks id := by
    intro settings request g new standing hstart hnew
    have hr := Ledger.registry_start s.fleet settings request
    rw [hstart] at hr
    have hbefore := (Fleet.tracks_of_register hnew).resolve_left (ne_of_start hstart hid)
    exact hbefore.of_registry hr
  obtain ⟨e, he, hentry⟩ := htracks
  generalize f.registry = r at h he
  cases h with
  | same => exact .inl ⟨e, he, hentry⟩
  | register standing hh =>
    rcases Fleet.tracks_of_register ⟨e, he, hentry⟩ with rfl | htracks
    · exact .inr (hands_of_handle? hh)
    · exact .inl htracks
  | unregister standing hh => exact .inl (Fleet.tracks_of_unregister ⟨e, he, hentry⟩)
  | clear => cases he
  | launch standing hl hstart => exact .inl (hlaunch hstart ⟨e, he, hentry⟩)
  | overdue standing later hl hstart =>
    exact .inl (hlaunch hstart (Fleet.tracks_of_unregister ⟨e, he, hentry⟩))

end Session

end Overseer

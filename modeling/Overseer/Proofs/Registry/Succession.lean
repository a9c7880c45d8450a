import Overseer.Proofs.Registry.EntryLedger
import Overseer.Proofs.Registry.PidEntries
import Overseer.Roster

/-!
# Succession under a pid

Processes that share a pid may be registered and taken off in any order, whether or not anybody
still holds the one that has the entry. The entry is had by the one that has been registered last,
until it is itself taken off (`Roster.Heeds`): no process takes off its successor, or bars it. Every
change of the registry is that a process gets the entry of its pid or that the one which has it
gives it up (`Roster.Change`), and the last change for a pid tells who has the entry
(`Roster.Tells`). -/

namespace Overseer

namespace Registry

variable {r : Registry} {standing : ProcessId → Standing} {entry old : Tracked} {pid : Int}
  {process other : ProcessId}

theorem TracksAt.unique (h : r.TracksAt pid process) (k : r.TracksAt pid other) :
    process = other := by
  obtain ⟨e, he, rfl⟩ := h
  obtain ⟨f, hf, rfl⟩ := k
  rw [Option.some.inj (he.symm.trans hf)]

theorem not_tracksAt_of_find? (h : r.find? pid = none) : ¬ r.TracksAt pid process := by
  rintro ⟨e, he, -⟩
  rw [h] at he
  cases he

theorem register_of_tracksAt (entry : Tracked) (h : r.TracksAt entry.pid entry.process)
    (standing : ProcessId → Standing) : r.register standing entry = (r, []) := by
  obtain ⟨current, hfind, hsame⟩ := h
  rw [register, hfind]
  exact if_pos hsame

theorem entries_register_of_not (h : ¬ r.TracksAt entry.pid entry.process) :
    (r.register standing entry).1.entries = place entry r.entries := by
  unfold register
  split
  next current hfind =>
    rw [if_neg fun hsame => h ⟨current, hfind, hsame⟩]
  · rfl

theorem place_of_find? (entry : Tracked) {entries : List Tracked}
    (h : entries.find? (·.pid == entry.pid) = some old) :
    ∃ front back, entries = front ++ old :: back ∧
      place entry entries = front ++ entry :: back := by
  obtain ⟨hpid, front, back, rfl, hfront⟩ := List.find?_eq_some_iff_append.mp h
  refine ⟨front, back, rfl, ?_⟩
  clear h
  induction front with
  | nil => exact if_pos (by simpa using hpid)
  | cons t front ih =>
    have ht : ¬ t.pid = entry.pid := by simpa using hfront t List.mem_cons_self
    rw [List.cons_append, place, if_neg ht, ih fun x hx => hfront x (List.mem_cons_of_mem t hx)]
    rfl

/-- A process that has the entry of its pid is taken off, and nothing else is. -/
theorem unregister_of_tracksAt (h : r.TracksAt pid process) (standing : ProcessId → Standing) :
    (r.unregister standing pid process).1 = ⟨r.besides pid⟩ ∧
      (r.unregister standing pid process).2.1 = true := by
  obtain ⟨current, hfind, hsame⟩ := h
  rw [unregister, hfind]
  dsimp only
  rw [if_pos hsame]
  exact ⟨rfl, rfl⟩

theorem find?_besides (r : Registry) (pid : Int) :
    (⟨r.besides pid⟩ : Registry).find? pid = none := by
  rw [find?, besides, List.find?_filter, List.find?_eq_none]
  simp

theorem unregister_of_not (h : ¬ r.TracksAt pid process) (standing : ProcessId → Standing) :
    r.unregister standing pid process = (r, false, []) := by
  unfold unregister
  split
  next current hfind => exact if_neg fun hsame => h ⟨current, hfind, hsame⟩
  · rfl

theorem tracksAt_register_iff (r : Registry) (standing : ProcessId → Standing) (entry : Tracked) :
    (r.register standing entry).1.TracksAt entry.pid process ↔ entry.process = process := by
  have hentered := tracksAt_register r standing entry
  refine ⟨fun h => hentered.unique h, ?_⟩
  rintro rfl
  exact hentered

/-- Who is taken off has not got the entry of the pid; anybody else has it if they had it before. -/
theorem tracksAt_unregister_iff :
    (r.unregister standing pid other).1.TracksAt pid process ↔
      r.TracksAt pid process ∧ process ≠ other := by
  by_cases hother : r.TracksAt pid other
  · rw [(unregister_of_tracksAt hother standing).1]
    refine iff_of_false (not_tracksAt_of_find? (find?_besides r pid)) fun ⟨h, hne⟩ => ?_
    exact hne (h.unique hother)
  · rw [unregister_of_not hother]
    refine ⟨fun h => ⟨h, ?_⟩, And.left⟩
    rintro rfl
    exact hother h

theorem tracksAt_iff_of_besides {a b : Registry} {q : Int} (h : a.besides q = b.besides q)
    (hne : pid ≠ q) : a.TracksAt pid process ↔ b.TracksAt pid process :=
  ⟨fun ha => ha.of_besides h.symm hne, fun hb => hb.of_besides h hne⟩

end Registry

def Member.entry (member : Member) (process : ProcessId) : Tracked :=
  { pid := member.pid, command := member.command, process }

namespace Roster

def latest? {α : Type} (kind : α → Bool) (told : List α) : Option α := told.reverse.find? kind

theorem latest?_concat {α : Type} (kind : α → Bool) (told : List α) (a : α) :
    latest? kind (told ++ [a]) = if kind a then some a else latest? kind told := by
  by_cases h : kind a <;> simp [latest?, h]

inductive Asked where
  | track (pid : Int) (process : ProcessId)
  | leave (pid : Int) (process : ProcessId)
  deriving DecidableEq, Repr

def Asked.pid : Asked → Int
  | .track pid _ => pid
  | .leave pid _ => pid

/-- Whether it matters to a process that it has the entry of a pid: to register anybody with this
pid does, to take off anybody else does not. -/
def Asked.mattersTo (pid : Int) (process : ProcessId) : Asked → Bool
  | .track q _ => q == pid
  | .leave q other => q == pid && other == process

theorem Asked.mattersTo_other {asked : Asked} {pid : Int} {process : ProcessId}
    (h : pid ≠ asked.pid) : asked.mattersTo pid process = false := by
  cases asked with
  | track q other => exact beq_false_of_ne (Ne.symm h)
  | leave q other =>
    have hpid : (q == pid) = false := beq_false_of_ne (Ne.symm h)
    rw [mattersTo, hpid, Bool.false_and]

def asked? (r : Roster) : Command → Option Asked
  | .register name => (r.find? name).map fun (process, member) => .track member.pid process
  | .unregister name => (r.find? name).map fun (process, member) => .leave member.pid process
  | _ => none

/-- The processes that have an entry are those which have been registered and are not replaced or
taken off since: what has mattered to them last is that they be tracked. -/
def Heeds (asked : List Asked) (registry : Registry) : Prop :=
  ∀ pid process, registry.TracksAt pid process ↔
    latest? (·.mattersTo pid process) asked = some (.track pid process)

inductive Change where
  /-- A process has got the entry of its pid, and did not have it before. -/
  | entered (pid : Int) (process : ProcessId)
  | removed (pid : Int) (process : ProcessId)
  deriving DecidableEq, Repr

def Change.pid : Change → Int
  | .entered pid _ => pid
  | .removed pid _ => pid

def change? (r : Roster) (command : Command) : Option Change :=
  match r.asked? command with
  | some (.track pid process) =>
    if (r.perform command).1.registry = r.registry then none else some (.entered pid process)
  | some (.leave pid process) =>
    match (r.perform command).2.2 with
    | .ok (some true) => some (.removed pid process)
    | _ => none
  | none => none

/-- Who has got which entry can be told from some changes: the last change for the pid is that this
process has got it. -/
def Tells (changes : List Change) (registry : Registry) : Prop :=
  ∀ pid process, registry.TracksAt pid process ↔
    latest? (·.pid == pid) changes = some (.entered pid process)

structure Handles (r : Roster) (name : String) (process : ProcessId) (member : Member) : Prop where
  again : r.registry.TracksAt member.pid process → r.perform (.register name) = (r, [], .ok none)
  added : r.registry.find? member.pid = none →
    (r.perform (.register name)).1.registry.entries =
      r.registry.entries ++ [member.entry process]
  /-- Another process has the entry, whether or not anybody holds it. -/
  replaced : ∀ old, r.registry.find? member.pid = some old → old.process ≠ process →
    (r.perform (.register name)).1.registry.pids = r.registry.pids ∧
      ∃ front back, r.registry.entries = front ++ old :: back ∧
        (r.perform (.register name)).1.registry.entries =
          front ++ member.entry process :: back
  answered : (r.perform (.unregister name)).2.2 =
    .ok (some (decide (r.registry.TracksAt member.pid process)))
  removed : r.registry.TracksAt member.pid process →
    (r.perform (.unregister name)).1.registry.entries = r.registry.besides member.pid
  refused : ¬ r.registry.TracksAt member.pid process →
    r.perform (.unregister name) = (r, [], .ok (some false))

section

variable {r : Roster} {name : String} {process owner : ProcessId} {member : Member}
  {command : Command} {pid : Int}

theorem perform_register (h : r.find? name = some (process, member)) :
    r.perform (.register name) =
      ({ r with registry := (r.registry.register r.standing (member.entry process)).1 },
        (r.registry.register r.standing (member.entry process)).2, .ok none) := by
  rw [perform, h]
  rfl

theorem perform_unregister (h : r.find? name = some (process, member)) :
    r.perform (.unregister name) =
      ({ r with registry := (r.registry.unregister r.standing member.pid process).1 },
        (r.registry.unregister r.standing member.pid process).2.2,
        .ok (some (r.registry.unregister r.standing member.pid process).2.1)) := by
  rw [perform, h]

theorem asked?_eq_track (h : r.asked? command = some (.track pid process)) :
    ∃ name member, command = .register name ∧ r.find? name = some (process, member) ∧
      member.pid = pid := by
  cases command with
  | register name =>
    obtain ⟨⟨id, member⟩, hfind, hasked⟩ := Option.map_eq_some_iff.mp h
    cases hasked
    exact ⟨name, member, rfl, hfind, rfl⟩
  | unregister name =>
    obtain ⟨_, _, hasked⟩ := Option.map_eq_some_iff.mp h
    cases hasked
  | _ => cases h

theorem asked?_eq_leave (h : r.asked? command = some (.leave pid process)) :
    ∃ name member, command = .unregister name ∧ r.find? name = some (process, member) ∧
      member.pid = pid := by
  cases command with
  | register name =>
    obtain ⟨_, _, hasked⟩ := Option.map_eq_some_iff.mp h
    cases hasked
  | unregister name =>
    obtain ⟨⟨id, member⟩, hfind, hasked⟩ := Option.map_eq_some_iff.mp h
    cases hasked
    exact ⟨name, member, rfl, hfind, rfl⟩
  | _ => cases h

theorem entries_register_of_find? {old : Tracked} (h : r.find? name = some (process, member))
    (hold : r.registry.find? member.pid = some old) (hne : old.process ≠ process) :
    ∃ front back, r.registry.entries = front ++ old :: back ∧
      (r.perform (.register name)).1.registry.entries = front ++ member.entry process :: back := by
  have hnot : ¬ r.registry.TracksAt member.pid process := by
    rintro ⟨e, he, hsame⟩
    rw [hold] at he
    obtain rfl := Option.some.inj he
    exact hne hsame
  obtain ⟨front, back, hentries, hplace⟩ :=
    Registry.place_of_find? (member.entry process) hold
  refine ⟨front, back, hentries, ?_⟩
  rw [perform_register h, ← hplace]
  exact Registry.entries_register_of_not hnot

theorem handles (h : r.find? name = some (process, member)) : r.Handles name process member where
  again htracks := by
    have hregister := Registry.register_of_tracksAt (member.entry process) htracks r.standing
    rw [perform_register h, hregister]
  added hnone := by
    have hplace : Registry.place (member.entry process) r.registry.entries =
        r.registry.entries ++ [member.entry process] := Ledger.place_of_none hnone
    rw [perform_register h, ← hplace]
    exact Registry.entries_register_of_not (Registry.not_tracksAt_of_find? hnone)
  replaced old hold hne := by
    obtain ⟨front, back, hentries, hafter⟩ := entries_register_of_find? h hold hne
    have hpid : old.pid = member.pid := by simpa using List.find?_some hold
    refine ⟨?_, front, back, hentries, hafter⟩
    rw [Registry.pids, Registry.pids, hentries, hafter]
    simp [Member.entry, hpid]
  answered := by
    rw [perform_unregister h]
    by_cases htracks : r.registry.TracksAt member.pid process
    · rw [(Registry.unregister_of_tracksAt htracks r.standing).2, decide_eq_true htracks]
    · rw [Registry.unregister_of_not htracks, decide_eq_false htracks]
  removed htracks := by
    rw [perform_unregister h, (Registry.unregister_of_tracksAt htracks r.standing).1]
  refused htracks := by
    rw [perform_unregister h, Registry.unregister_of_not htracks]

theorem besides_perform {asked : Asked} (h : r.asked? command = some asked) :
    (r.perform command).1.registry.besides asked.pid = r.registry.besides asked.pid := by
  cases asked with
  | track pid process =>
    obtain ⟨name, member, rfl, hfind, rfl⟩ := asked?_eq_track h
    rw [perform_register hfind]
    exact Registry.besides_register _ _ (member.entry process)
  | leave pid process =>
    obtain ⟨name, member, rfl, hfind, rfl⟩ := asked?_eq_leave h
    rw [perform_unregister hfind]
    exact Registry.besides_unregister _ _ _ process

theorem registry_perform (h : r.asked? command = none) :
    (r.perform command).1.registry = r.registry := by
  cases command with
  | register name => simp only [perform, Option.map_eq_none_iff.mp h]
  | unregister name => simp only [perform, Option.map_eq_none_iff.mp h]
  | exit name =>
    simp only [perform]
    split <;> rfl
  | _ => rfl

theorem find?_perform (h : (r.asked? command).map Asked.pid ≠ some pid) :
    (r.perform command).1.registry.find? pid = r.registry.find? pid := by
  cases ha : r.asked? command with
  | none => rw [registry_perform ha]
  | some asked =>
    rw [ha, Option.map_some, Ne, Option.some.injEq] at h
    exact Registry.find?_of_besides (besides_perform ha) (Ne.symm h)

theorem nodup_perform (h : r.registry.pids.Nodup) (command : Command) :
    (r.perform command).1.registry.pids.Nodup := by
  cases ha : r.asked? command with
  | none => rwa [registry_perform ha]
  | some asked =>
    cases asked with
    | track pid process =>
      obtain ⟨name, member, rfl, hfind, -⟩ := asked?_eq_track ha
      rw [perform_register hfind]
      exact Registry.nodup_register h
    | leave pid process =>
      obtain ⟨name, member, rfl, hfind, -⟩ := asked?_eq_leave ha
      rw [perform_unregister hfind]
      exact h.sublist (Registry.sublist_unregister.map _)

theorem tracksAt_track (h : r.asked? command = some (.track pid process)) :
    (r.perform command).1.registry.TracksAt pid owner ↔ process = owner := by
  obtain ⟨name, member, rfl, hfind, rfl⟩ := asked?_eq_track h
  rw [perform_register hfind]
  exact Registry.tracksAt_register_iff _ _ (member.entry process)

theorem tracksAt_leave (h : r.asked? command = some (.leave pid process)) :
    (r.perform command).1.registry.TracksAt pid owner ↔
      r.registry.TracksAt pid owner ∧ owner ≠ process := by
  obtain ⟨name, member, rfl, hfind, rfl⟩ := asked?_eq_leave h
  rw [perform_unregister hfind]
  exact Registry.tracksAt_unregister_iff

theorem tracksAt_other {asked : Asked} (h : r.asked? command = some asked) (hne : pid ≠ asked.pid) :
    (r.perform command).1.registry.TracksAt pid owner ↔ r.registry.TracksAt pid owner :=
  Registry.tracksAt_iff_of_besides (besides_perform h) hne

theorem change?_track (h : r.asked? command = some (.track pid process)) :
    r.change? command =
      if (r.perform command).1.registry = r.registry then none
      else some (.entered pid process) := by
  rw [change?, h]

theorem change?_leave (h : r.asked? command = some (.leave pid process)) :
    r.change? command =
      if r.registry.TracksAt pid process then some (.removed pid process) else none := by
  rw [change?, h]
  obtain ⟨name, member, rfl, hfind, rfl⟩ := asked?_eq_leave h
  dsimp only
  rw [(handles hfind).answered]
  by_cases htracks : r.registry.TracksAt member.pid process <;> simp [htracks]

theorem change?_eq_some {change : Change} (h : r.change? command = some change) :
    (∃ pid process, r.asked? command = some (.track pid process) ∧
      change = .entered pid process) ∨
    ∃ pid process, r.asked? command = some (.leave pid process) ∧
      r.registry.TracksAt pid process ∧ change = .removed pid process := by
  cases ha : r.asked? command with
  | none =>
    rw [change?, ha] at h
    cases h
  | some asked =>
    cases asked with
    | track pid process =>
      rw [change?_track ha] at h
      split at h
      · cases h
      · exact .inl ⟨pid, process, rfl, (Option.some.inj h).symm⟩
    | leave pid process =>
      rw [change?_leave ha] at h
      split at h
      next htracks => exact .inr ⟨pid, process, rfl, htracks, (Option.some.inj h).symm⟩
      · cases h

theorem registry_of_change? (h : r.change? command = none) :
    (r.perform command).1.registry = r.registry := by
  cases ha : r.asked? command with
  | none => exact registry_perform ha
  | some asked =>
    cases asked with
    | track pid process =>
      rw [change?_track ha] at h
      split at h
      · assumption
      · cases h
    | leave pid process =>
      rw [change?_leave ha] at h
      split at h
      · cases h
      next hnot =>
        obtain ⟨name, member, rfl, hfind, rfl⟩ := asked?_eq_leave ha
        rw [(handles hfind).refused hnot]

/-- After a change the entry is that of the process which has got it, or there is none. -/
theorem tracksAt_of_change? {change : Change} (h : r.change? command = some change) :
    (r.perform command).1.registry.TracksAt change.pid owner ↔
      change = .entered change.pid owner := by
  obtain ⟨pid, process, ha, rfl⟩ | ⟨pid, process, ha, htracks, rfl⟩ := change?_eq_some h
  · simp [Change.pid, tracksAt_track ha]
  · refine iff_of_false (fun hafter => ?_) nofun
    obtain ⟨hbefore, hne⟩ := (tracksAt_leave ha).mp hafter
    exact hne (hbefore.unique htracks)

theorem tracksAt_of_change?_other {change : Change} (h : r.change? command = some change)
    (hne : pid ≠ change.pid) :
    (r.perform command).1.registry.TracksAt pid owner ↔ r.registry.TracksAt pid owner := by
  obtain ⟨q, process, ha, rfl⟩ | ⟨q, process, ha, -, rfl⟩ := change?_eq_some h
  · exact tracksAt_other ha hne
  · exact tracksAt_other ha hne

end

section

variable {α : Type} {r : Roster} {command : Command}

def history (put : Roster → Command → Option α) (r : Roster) : List Command → List α
  | [] => []
  | command :: commands =>
    (put r command).toList ++ history put (r.perform command).1 commands

def performAll (r : Roster) (commands : List Command) : Roster :=
  commands.foldl (fun r command => (r.perform command).1) r

/-- What single commands keep of a registry and what has been put down holds of runs. -/
theorem history_induction {put : Roster → Command → Option α} {P : List α → Registry → Prop}
    (hstep : ∀ {r : Roster} {told : List α} (command : Command), P told r.registry →
      P (told ++ (put r command).toList) (r.perform command).1.registry)
    {told : List α} (h : P told r.registry) (commands : List Command) :
    P (told ++ history put r commands) (r.performAll commands).registry := by
  induction commands generalizing told r with
  | nil => simpa [history, performAll] using h
  | cons command commands ih =>
    rw [history, ← List.append_assoc]
    exact ih (hstep command h)

theorem nodup_performAll (h : r.registry.pids.Nodup) (commands : List Command) :
    (r.performAll commands).registry.pids.Nodup := by
  induction commands generalizing r with
  | nil => exact h
  | cons command commands ih => exact ih (nodup_perform h command)

theorem Heeds.perform {told : List Asked} (h : Heeds told r.registry) (command : Command) :
    Heeds (told ++ (r.asked? command).toList) (r.perform command).1.registry := by
  intro pid owner
  cases ha : r.asked? command with
  | none => simpa [registry_perform ha] using h pid owner
  | some asked =>
    rw [Option.toList_some, latest?_concat]
    by_cases hpid : pid = asked.pid
    · cases asked with
      | track q process =>
        obtain rfl : pid = q := hpid
        simp [tracksAt_track ha, Asked.mattersTo]
      | leave q process =>
        obtain rfl : pid = q := hpid
        rw [tracksAt_leave ha, h pid owner]
        by_cases howner : process = owner
        · simp [Asked.mattersTo, howner]
        · simp [Asked.mattersTo, howner, Ne.symm howner]
    · rw [tracksAt_other ha hpid, h pid owner, Asked.mattersTo_other hpid]
      rfl

/-- The change that one more command makes tells what has become of the registry. -/
theorem Tells.perform {told : List Change} (h : Tells told r.registry) (command : Command) :
    Tells (told ++ (r.change? command).toList) (r.perform command).1.registry := by
  intro pid owner
  cases hc : r.change? command with
  | none => simpa [registry_of_change? hc] using h pid owner
  | some change =>
    rw [Option.toList_some, latest?_concat]
    by_cases hpid : pid = change.pid
    · subst hpid
      simp [tracksAt_of_change? hc]
    · simp [tracksAt_of_change?_other hc hpid, h pid owner, Ne.symm hpid]

end

/-- However processes are made, registered, taken off, ended and dropped, there is one entry for
each pid. A process has it if and only if it has been registered and since then neither been taken
off nor been replaced by another process with its pid; so tells the last change for the pid, too.
Who has not got the entry is refused, and the entries of other pids stay as they are. -/
theorem registry_heeds_commands (commands : List Command) :
    let r := performAll {} commands
    r.registry.pids.Nodup ∧
    (∀ pid process, r.registry.TracksAt pid process ↔
      latest? (·.pid == pid) (history change? {} commands) = some (.entered pid process)) ∧
    (∀ pid process, r.registry.TracksAt pid process ↔
      latest? (·.mattersTo pid process) (history asked? {} commands) =
        some (.track pid process)) ∧
    (∀ name process member, r.find? name = some (process, member) →
      r.Handles name process member) ∧
    ∀ command,
      (r.asked? command = none → (r.perform command).1.registry = r.registry) ∧
      ∀ pid, (r.asked? command).map Asked.pid ≠ some pid →
        (r.perform command).1.registry.find? pid = r.registry.find? pid := by
  intro r
  have hunique : ({} : Roster).registry.pids.Nodup := List.nodup_nil
  have hnobody : ∀ pid process, ¬ ({} : Roster).registry.TracksAt pid process :=
    fun pid process => Registry.not_tracksAt_of_find? rfl
  have htells : Tells [] ({} : Roster).registry :=
    fun pid process => iff_of_false (hnobody pid process) nofun
  have hheeds : Heeds [] ({} : Roster).registry :=
    fun pid process => iff_of_false (hnobody pid process) nofun
  exact ⟨nodup_performAll hunique commands,
    history_induction (fun command h => h.perform command) htells commands,
    history_induction (fun command h => h.perform command) hheeds commands,
    fun name process member h => handles h,
    fun command => ⟨registry_perform, fun pid => find?_perform⟩⟩

/-- A pid is used again while the name of its former process is given away. -/
theorem registry_heeds_commands_of_reused_pid :
    let commands : List Command :=
      [.create "old" 4242 "wrangler dev" true, .register "old", .create "other" 7 "npm" true,
        .register "other", .create "new" 4242 "wrangler build" true, .register "new",
        .unregister "old", .drop "new", .register "old"]
    let r := performAll {} (commands.take 6)
    let after := performAll {} commands
    (r.registry.pids = [4242, 7] ∧ r.registry.TracksAt 4242 2 ∧
      (r.perform (.unregister "old")) = (r, [], .ok (some false)) ∧
      (r.perform (.unregister "new")).2.2 = .ok (some true)) ∧
    after.registry.pids = [4242, 7] ∧ after.registry.TracksAt 4242 0 := by
  intro commands r after
  obtain ⟨-, htells, -, hhandles, -⟩ := registry_heeds_commands (commands.take 6)
  have hold := hhandles "old" 0 { pid := 4242, command := "wrangler dev", running := true } rfl
  have hnew := hhandles "new" 2 { pid := 4242, command := "wrangler build", running := true } rfl
  have htracks : r.registry.TracksAt 4242 2 := (htells 4242 2).mpr (by decide +kernel)
  have hstale : ¬ r.registry.TracksAt 4242 0 := fun h => absurd (h.unique htracks) (by decide)
  obtain ⟨-, -, hheeds, -⟩ := registry_heeds_commands commands
  refine ⟨⟨by decide +kernel, htracks, hold.refused hstale, ?_⟩, by decide +kernel,
    (hheeds 4242 0).mpr (by decide +kernel)⟩
  have hanswered := hnew.answered
  rwa [decide_eq_true htracks] at hanswered

end Roster

end Overseer

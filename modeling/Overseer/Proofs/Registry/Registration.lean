import Mathlib.Data.List.Nodup
import Overseer.Proofs.Supervision.Enduring

/-!
# What is registered

There is one entry of the registry for each pid, and it is that of a process which has this pid
(`Fleet.Registered`). So whoever is taken off the registry is not registered any more, even if
somebody else has taken the place under the pid in the meantime.
-/

namespace Overseer

open World

namespace Registry

theorem mem_place_self (entry : Tracked) (entries : List Tracked) :
    entry ∈ place entry entries := by
  induction entries with
  | nil => exact List.mem_singleton.mpr rfl
  | cons t rest ih =>
    rw [place]
    split
    · exact List.mem_cons_self
    · exact List.mem_cons_of_mem t ih

theorem mem_place {entry t : Tracked} {entries : List Tracked} (h : t ∈ place entry entries) :
    t = entry ∨ t ∈ entries := by
  induction entries with
  | nil => exact .inl (List.mem_singleton.mp h)
  | cons x rest ih =>
    rw [place] at h
    split at h
    · exact (List.mem_cons.mp h).imp id (List.mem_cons_of_mem x)
    · rcases List.mem_cons.mp h with rfl | h
      · exact .inr List.mem_cons_self
      · exact (ih h).imp id (List.mem_cons_of_mem x)

theorem nodup_place {entry : Tracked} {entries : List Tracked}
    (h : (entries.map (·.pid)).Nodup) : ((place entry entries).map (·.pid)).Nodup := by
  induction entries with
  | nil => exact List.nodup_singleton _
  | cons t rest ih =>
    obtain ⟨hnot, hrest⟩ := List.nodup_cons.mp h
    rw [place]
    split
    next he =>
      rw [List.map_cons, ← he]
      exact h
    next hne =>
      refine List.nodup_cons.mpr ⟨fun hm => ?_, ih hrest⟩
      obtain ⟨x, hx, hpid⟩ := List.mem_map.mp hm
      rcases mem_place hx with rfl | hx
      · exact hne hpid.symm
      · exact hnot (hpid ▸ List.mem_map_of_mem hx)

variable {r : Registry} {standing : ProcessId → Standing} {entry t : Tracked} {pid : Int}
  {id : ProcessId}

theorem nodup_register (h : r.pids.Nodup) : (r.register standing entry).1.pids.Nodup := by
  unfold register
  split
  · split
    · exact h
    · exact nodup_place h
  · exact nodup_place h

theorem mem_register (h : t ∈ (r.register standing entry).1.entries) :
    t = entry ∨ t ∈ r.entries := by
  unfold register at h
  split at h
  · split at h
    · exact .inr h
    · exact mem_place h
  · exact mem_place h

theorem exists_mem_register (r : Registry) (standing : ProcessId → Standing) (entry : Tracked) :
    ∃ t ∈ (r.register standing entry).1.entries, t.process = entry.process := by
  unfold register
  split
  next current hfind =>
    split
    next he => exact ⟨current, List.mem_of_find?_eq_some hfind, he⟩
    · exact ⟨entry, mem_place_self entry _, rfl⟩
  · exact ⟨entry, mem_place_self entry _, rfl⟩

theorem sublist_unregister : (r.unregister standing pid id).1.entries.Sublist r.entries := by
  unfold unregister
  split
  · split
    · exact List.filter_sublist
    · exact .refl _
  · exact .refl _

theorem process_ne_of_unregister (h : r.pids.Nodup)
    (ht : t ∈ (r.unregister standing pid id).1.entries) (hpid : t.pid = pid) : t.process ≠ id := by
  have hmem := sublist_unregister.subset ht
  unfold unregister at ht
  split at ht
  next current hfind =>
    have hcurrent : current.pid = pid := by simpa using List.find?_some hfind
    split at ht
    next he =>
      have hne : ¬ t.pid = pid := by simpa using (List.mem_filter.mp ht).2
      exact absurd hpid hne
    next hne =>
      -- there is no other entry under the pid than the one that is not taken off
      have hsame : t = current := List.inj_on_of_nodup_map h hmem (List.mem_of_find?_eq_some hfind)
        (hpid.trans hcurrent.symm)
      rwa [hsame]
  next hnone =>
    have hne : ¬ t.pid = pid := by simpa using List.find?_eq_none.mp hnone t hmem
    exact absurd hpid hne

end Registry

namespace Supervised

theorem termination_readChunks (p : Supervised) (chunks : List (List UInt8)) :
    Stopping.terminationOf (p.readChunks chunks).1 = Stopping.terminationOf p := by
  induction chunks generalizing p with
  | nil => rfl
  | cons bytes chunks ih =>
    rw [readChunks]
    split
    · refine (ih _).trans ?_
      unfold readChunk
      split <;> rfl
    · rfl

/-- The pid of a process and the limits for the ending of its tree never change. -/
theorem enduring_termination :
    Enduring fun p q => Stopping.terminationOf q = Stopping.terminationOf p where
  refl _ := rfl
  trans h k := k.trans h
  same h := by
    obtain ⟨log, rfl, -, -⟩ := h
    rfl
  readOutput p s := by
    unfold readOutput
    split
    · split
      · rfl
      · exact p.termination_readChunks _
    · rfl
  noticeExit p s := by
    unfold noticeExit
    split <;> rfl
  giveUpReading p s := by
    unfold giveUpReading
    split
    · split <;> rfl
    · rfl
  reportEnd p s := by
    have hcomplete :
        ∀ code, Stopping.terminationOf (p.complete code).1 = Stopping.terminationOf p := by
      intro code
      have hrest : Stopping.terminationOf p.recordRest.1 = Stopping.terminationOf p := by
        unfold recordRest
        split <;> rfl
      exact hrest
    unfold reportEnd
    split
    · exact hcomplete _
    · exact hcomplete _
    · rfl

end Supervised

namespace Fleet

/-- There is one entry for each pid, and it is that of a process with this pid. -/
structure Registered (f : Fleet) : Prop where
  unique : f.registry.pids.Nodup
  known : ∀ e ∈ f.registry.entries, ∃ p, f.process? e.process = some p ∧ p.pid = e.pid

def Tracks (f : Fleet) (id : ProcessId) : Prop := ∃ e ∈ f.registry.entries, e.process = id

variable {f g : Fleet} {k : Prop} {id : ProcessId} {p : Supervised} {registry : Registry}

theorem Registered.of_process (h : f.Registered) (hregistry : g.registry = f.registry)
    (hprocess : ∀ id p, f.process? id = some p → ∃ q, g.process? id = some q ∧ q.pid = p.pid) :
    g.Registered where
  unique := hregistry ▸ h.unique
  known e he := by
    obtain ⟨p, hp, hpid⟩ := h.known e (hregistry ▸ he)
    obtain ⟨q, hq, hsame⟩ := hprocess e.process p hp
    exact ⟨q, hq, hsame.trans hpid⟩

theorem Registered.reregisters (h : f.Registered) (hr : f.Reregisters registry) :
    { f with registry }.Registered := by
  cases hr with
  | @register id p standing hp =>
    refine ⟨Registry.nodup_register h.unique, fun e he => ?_⟩
    rcases Registry.mem_register he with rfl | he
    · exact ⟨p, hp, rfl⟩
    · exact h.known e he
  | unregister standing pid id =>
    exact ⟨h.unique.sublist (Registry.sublist_unregister.map _),
      fun e he => h.known e (Registry.sublist_unregister.subset he)⟩
  | clear => exact ⟨List.nodup_nil, fun e he => absurd he List.not_mem_nil⟩

theorem pid_of_same {q : Supervised} (h : p.Same q) : q.pid = p.pid :=
  congrArg Tree.Termination.pid (Supervised.enduring_termination.same h)

theorem Registered.calls (h : f.Registered) (hc : Calls k f g) : g.Registered := by
  induction hc with
  | refl => exact h
  | report _ _ ih => exact ⟨ih.unique, ih.known⟩
  | signalProcess _ _ _ ih => exact ⟨ih.unique, ih.known⟩
  | signalGroup _ _ _ ih => exact ⟨ih.unique, ih.known⟩
  | registry _ hr ih => exact ih.reregisters hr
  | setLog _ hl hc ih =>
    refine ih.of_process rfl fun id p hp => ?_
    obtain ⟨q, hq, hs⟩ := same_setLog hl hc hp
    exact ⟨q, hq, pid_of_same hs⟩
  | @start g settings request _ _ ih =>
    refine ih.of_process ?_ fun id p hp => ⟨p, process?_start_of_some settings request hp, rfl⟩
    rcases start_cases g settings request with
      hs | ⟨launch, ⟨-, -, hs⟩ | ⟨p, notes, -, -, -, -, hs⟩⟩
    · rw [hs]
    · rw [hs]
      rfl
    · rw [hs]
      rfl

theorem registry_stepEach (step : Supervised → Scene → Scene × Supervised) (ids : List ProcessId)
    (f : Fleet) : (f.stepEach step ids).registry = f.registry := by
  induction ids generalizing f with
  | nil => rfl
  | cons id ids ih =>
    refine (ih (stepProcess step f id)).trans ?_
    unfold stepProcess
    split <;> rfl

theorem registry_watchEnds (f : Fleet) : f.watchEnds.registry = f.registry :=
  (registry_stepEach _ _ _).trans ((registry_stepEach _ _ _).trans (registry_stepEach _ _ f))

theorem tracks_register (hp : f.process? id = some p) (standing : ProcessId → Standing) :
    (f.register standing id).Tracks id := by
  unfold register
  rw [hp]
  exact Registry.exists_mem_register _ _ _

theorem Registered.not_tracks_unregister (h : f.Registered) (hp : f.process? id = some p)
    (standing : ProcessId → Standing) : ¬ (f.unregister standing id).1.Tracks id := by
  unfold unregister
  rw [hp]
  rintro ⟨e, he, rfl⟩
  obtain ⟨q, hq, hpid⟩ := h.known e (Registry.sublist_unregister.subset he)
  obtain rfl := Option.some.inj (hp.symm.trans hq)
  exact Registry.process_ne_of_unregister h.unique he hpid.symm rfl

end Fleet

namespace Session

open Timeline

variable {t u : Timeline Session Activity Result}

theorem registered_later {s : Session} {w : System} {others : List Birth}
    (h : Later machinery { state := s.afresh w others } t) : t.state.fleet.Registered := by
  have hempty : (s.afresh w others).fleet.Registered :=
    ⟨List.nodup_nil, fun e he => absurd he List.not_mem_nil⟩
  have hR := Supervised.enduring_termination
  refine Later.induction (m := machinery) (P := fun u => u.state.fleet.Registered) ?_ ?_ ?_ ?_ ?_
    hempty h
  · exact fun u step hu => hu.calls (calls_launch u step)
  · exact fun u moment hu => ⟨hu.unique, hu.known⟩
  · refine fun u hu => hu.of_process (Fleet.registry_stepEach _ _ _) fun id p hp => ?_
    obtain ⟨q, hq, hsame⟩ := hR.readOutputs hp
    exact ⟨q, hq, congrArg Tree.Termination.pid hsame⟩
  · refine fun u hu => hu.of_process (Fleet.registry_watchEnds _) fun id p hp => ?_
    obtain ⟨q, hq, hsame⟩ := hR.watchEnds hp
    exact ⟨q, hq, congrArg Tree.Termination.pid hsame⟩
  · exact fun u task hu => hu.calls (calls_pollTask u task)

end Session

end Overseer

import Overseer.Proofs.Session.CallerEffects
import Overseer.Proofs.World.ChildPipes

/-!
# Processes and their programs

A fleet seen as pairs, each of a supervised process and its program (`Fleet.view?`). Each program is
under one process alone (`Fleet.Paired`), and so what is done with one process leaves the pairs of
the others as they are.
-/

namespace Overseer

open World

namespace Supervised

def Same (p q : Supervised) : Prop :=
  ∃ log : OutputLog, q = { p with log } ∧ log.lines = p.log.lines ∧ log.closed = p.log.closed

theorem Same.refl (p : Supervised) : p.Same p := ⟨p.log, rfl, rfl, rfl⟩

theorem Same.trans {p q r : Supervised} (h : p.Same q) (k : q.Same r) : p.Same r := by
  obtain ⟨log, rfl, hl, hc⟩ := h
  obtain ⟨last, rfl, kl, kc⟩ := k
  exact ⟨last, rfl, kl.trans hl, kc.trans hc⟩

theorem Fresh.same {p q : Supervised} (h : p.Fresh) (k : p.Same q) : q.Fresh := by
  obtain ⟨log, rfl, hl, hc⟩ := k
  exact ⟨hl.trans h.lines, hc.trans h.closed, h.splitter, h.phase⟩

/-- A process that has just been started, with its program: it is read from, unless reading its pipe
has failed by then. -/
structure Begun (p : Supervised) (c : Child) : Prop extends p.Fresh where
  reader : p.reader = .reading ↔ c.isBroken = false

theorem Begun.same {p q : Supervised} {c d : Child} (h : p.Begun c) (hs : p.Same q)
    (hc : c.Stays d) : q.Begun d where
  toFresh := h.toFresh.same hs
  reader := by
    obtain ⟨log, rfl, -, -⟩ := hs
    rw [hc.broken]
    exact h.reader

theorem firstReader_eq_reading_iff {w : System} {id : ChildId} {c : Child}
    (h : w.children[id]? = some c) : firstReader w id = .reading ↔ c.isBroken = false := by
  unfold firstReader System.pipe? Child.isBroken
  rw [h, Option.bind_some]
  rcases c.pipe with _ | ⟨unread, state⟩
  · simp
  · cases state <;> simp [PipeState.isFailed]

end Supervised

namespace Fleet

def view? (f : Fleet) (id : ProcessId) : Option (Supervised × Child) :=
  (f.process? id).bind fun p => (f.scene.system.children[p.child]?).map (p, ·)

structure Paired (f : Fleet) : Prop where
  size : f.scene.system.children.size = f.processes.size
  child : ∀ (id : ProcessId) p, f.processes[id]? = some p → p.child = id

section

variable {f g h : Fleet} {id other : ProcessId} {p q : Supervised} {c d : Child}

theorem view?_eq_some_iff :
    f.view? id = some (p, c) ↔
      f.processes[id]? = some p ∧ f.scene.system.children[p.child]? = some c := by
  simp [view?, process?, Option.bind_eq_some_iff, Option.map_eq_some_iff]

theorem Paired.view (hf : f.Paired) (hid : id < f.processes.size) :
    ∃ p c, f.view? id = some (p, c) := by
  have hp : f.processes[id]? = some f.processes[id] := Array.getElem?_eq_getElem hid
  have hc : id < f.scene.system.children.size := hf.size ▸ hid
  refine ⟨_, f.scene.system.children[id], view?_eq_some_iff.mpr ⟨hp, ?_⟩⟩
  rw [hf.child id _ hp]
  exact Array.getElem?_eq_getElem hc

theorem Paired.of_process (hf : f.Paired) (hp : f.process? id = some p) :
    ∃ c, f.view? id = some (p, c) := by
  obtain ⟨q, c, hv⟩ := hf.view (Array.getElem?_eq_some_iff.mp hp).1
  obtain rfl := Option.some.inj (hp.symm.trans (view?_eq_some_iff.mp hv).1)
  exact ⟨c, hv⟩

theorem lt_of_view (hv : f.view? id = some (p, c)) : id < f.processes.size :=
  (Array.getElem?_eq_some_iff.mp (view?_eq_some_iff.mp hv).1).1

theorem Paired.children (hf : f.Paired) (hv : f.view? id = some (p, c)) :
    f.scene.system.children[id]? = some c := by
  obtain ⟨hp, hc⟩ := view?_eq_some_iff.mp hv
  rwa [hf.child id p hp] at hc

structure Frame (f g : Fleet) : Prop where
  now : g.now = f.now
  size : f.processes.size ≤ g.processes.size
  paired : f.Paired → g.Paired
  listed : f.scene.system.Listed → g.scene.system.Listed
  upcoming : f.scene.system.Upcoming → g.scene.system.Upcoming

theorem Frame.refl (f : Fleet) : Frame f f :=
  ⟨rfl, Nat.le_refl _, fun h => h, fun h => h, fun h => h⟩

theorem Frame.trans (hfg : Frame f g) (hgh : Frame g h) : Frame f h where
  now := hgh.now.trans hfg.now
  size := Nat.le_trans hfg.size hgh.size
  paired hf := hgh.paired (hfg.paired hf)
  listed hf := hgh.listed (hfg.listed hf)
  upcoming hf := hgh.upcoming (hfg.upcoming hf)

/-- A fleet after callers have done something: each process is as it was before but for the queues
of its log, and nothing has come into its pipe; or it is new. -/
structure Carries (starting : Prop) (f g : Fleet) : Prop extends Frame f g where
  view : f.Paired → ∀ id q d, g.view? id = some (q, d) →
    (∃ p c, f.view? id = some (p, c) ∧ p.Same q ∧ c.Stays d) ∨
      starting ∧ f.processes.size ≤ id ∧ q.Begun d

variable {k : Prop}

theorem Carries.refl (f : Fleet) : Carries k f f where
  toFrame := .refl f
  view _ _ q d hv := .inl ⟨q, d, hv, .refl q, .refl d⟩

theorem Carries.trans (hfg : Carries k f g) (hgh : Carries k g h) : Carries k f h where
  toFrame := hfg.toFrame.trans hgh.toFrame
  view hf id r e hv := by
    rcases hgh.view (hfg.paired hf) id r e hv with ⟨q, d, hq, hqr, hde⟩ | ⟨hk, hsize, hfresh⟩
    · rcases hfg.view hf id q d hq with ⟨p, c, hp, hpq, hcd⟩ | ⟨hk, hsize, hfresh⟩
      · exact .inl ⟨p, c, hp, hpq.trans hqr, hcd.trans hde⟩
      · exact .inr ⟨hk, hsize, hfresh.same hqr hde⟩
    · exact .inr ⟨hk, Nat.le_trans hfg.size hsize, hfresh⟩

theorem Carries.of_eq (hs : g.scene.system = f.scene.system) (hp : g.processes = f.processes) :
    Carries k f g := by
  obtain ⟨scene, processes, registry⟩ := f
  obtain ⟨⟨system, journal⟩, others, entries⟩ := g
  obtain rfl : system = scene.system := hs
  obtain rfl : others = processes := hp
  refine ⟨⟨rfl, Nat.le_refl _, fun hf => ⟨hf.size, hf.child⟩, fun h => h, fun h => h⟩, ?_⟩
  exact fun _ _ q d hv => .inl ⟨q, d, hv, .refl q, .refl d⟩

theorem carries_withSystem {system : System}
    (hs : System.Proceeds Child.Stays f.scene.system system) :
    Carries k f (f.withSystem system) where
  now := hs.now
  size := Nat.le_refl _
  paired hf := ⟨hs.size.trans hf.size, hf.child⟩
  listed := hs.listed
  upcoming := hs.upcoming
  view hf id q d hv := by
    obtain ⟨hq, hd⟩ := view?_eq_some_iff.mp hv
    have hlt : q.child < f.scene.system.children.size := by
      rw [hf.child id q hq, hf.size]
      exact (Array.getElem?_eq_some_iff.mp hq).1
    have hc := Array.getElem?_eq_getElem hlt
    obtain ⟨d', hd', hgoes⟩ := hs.each q.child _ hc
    obtain rfl := Option.some.inj (hd.symm.trans hd')
    exact .inl ⟨q, _, view?_eq_some_iff.mpr ⟨hq, hc⟩, .refl q, hgoes⟩

theorem carries_setLog {log : OutputLog} (hl : log.lines = (f.log id).lines)
    (hc : log.closed = (f.log id).closed) : Carries k f (f.setLog id log) where
  now := rfl
  size := by simp [setLog]
  paired hf := by
    refine ⟨by simp [setLog, hf.size], fun other q hq => ?_⟩
    rw [setLog, Array.getElem?_modify] at hq
    split at hq
    · obtain ⟨p, hp, rfl⟩ := Option.map_eq_some_iff.mp hq
      exact hf.child other p hp
    · exact hf.child other q hq
  listed hw := hw
  upcoming hw := hw
  view hf other q d hv := by
    obtain ⟨hq, hd⟩ := view?_eq_some_iff.mp hv
    rw [setLog, Array.getElem?_modify] at hq
    split at hq
    next he =>
      subst he
      obtain ⟨p, hp, rfl⟩ := Option.map_eq_some_iff.mp hq
      have hlog : f.log id = p.log := by simp [Fleet.log, process?, hp]
      rw [hlog] at hl hc
      exact .inl ⟨p, d, view?_eq_some_iff.mpr ⟨hp, hd⟩, ⟨log, rfl, hl, hc⟩, .refl d⟩
    · exact .inl ⟨q, d, view?_eq_some_iff.mpr ⟨hq, hd⟩, .refl q, .refl d⟩

theorem carries_push {scene : Scene} (hk : k) (ha : System.Adds f.scene.system scene.system)
    (hp : p.Fresh) (hreader : p.reader = Supervised.firstReader scene.system p.child)
    (hchild : p.child = f.scene.system.children.size) :
    Carries k f { f with scene, processes := f.processes.push p } where
  now := ha.now
  size := by simp
  paired hf := by
    refine ⟨by simp [ha.size, hf.size], fun other q hq => ?_⟩
    rw [Array.getElem?_push] at hq
    split at hq
    next he =>
      obtain rfl := Option.some.inj hq
      rw [he, hchild, hf.size]
    · exact hf.child other q hq
  listed := ha.listed
  upcoming := ha.upcoming
  view hf other q d hv := by
    obtain ⟨hq, hd⟩ := view?_eq_some_iff.mp hv
    rw [Array.getElem?_push] at hq
    split at hq
    next he =>
      obtain rfl := Option.some.inj hq
      have hbegun : p.reader = .reading ↔ d.isBroken = false :=
        hreader ▸ Supervised.firstReader_eq_reading_iff hd
      exact .inr ⟨hk, Nat.le_of_eq he.symm, hp, hbegun⟩
    · obtain ⟨c, hv⟩ := hf.of_process hq
      obtain ⟨d', hd', hgoes⟩ := ha.others q.child c (view?_eq_some_iff.mp hv).2
      obtain rfl := Option.some.inj (hd.symm.trans hd')
      exact .inl ⟨q, c, hv, .refl q, hgoes⟩

theorem carries_start (hk : k) (f : Fleet) (settings : Settings) (request : Request) :
    Carries k f (f.start settings request).1 := by
  rcases start_cases f settings request with hs | ⟨launch, h⟩
  · rw [hs]
    exact .refl f
  · rcases System.spawn_cases f.scene.system launch with ⟨reason, hr, hproceeds⟩ | ⟨hr, hadds⟩
    · rcases h with ⟨-, -, hs⟩ | ⟨p, notes, hok, -⟩
      · rw [hs]
        exact carries_withSystem hproceeds
      · rw [hr] at hok
        cases hok
    · rcases h with ⟨failure, herror, -⟩ | ⟨p, notes, hok, hfresh, hreader, -, hs⟩
      · rw [hr] at herror
        cases herror
      · rw [hs]
        rw [hr] at hok
        exact carries_push hk hadds hfresh hreader (Except.ok.inj hok).symm

theorem Calls.carries (hc : Calls k f g) : Carries k f g := by
  induction hc with
  | refl => exact .refl f
  | report _ _ ih => exact ih.trans (.of_eq rfl rfl)
  | signalProcess p signal _ ih =>
    exact ih.trans (carries_withSystem (System.proceeds_signalProcess _ p signal))
  | signalGroup pgid signal _ ih =>
    exact ih.trans (carries_withSystem (System.proceeds_signalGroup _ pgid signal))
  | setLog _ hl hc ih => exact ih.trans (carries_setLog hl hc)
  | registry _ _ ih => exact ih.trans (.of_eq rfl rfl)
  | start settings request hk _ ih => exact ih.trans (carries_start hk _ settings request)

structure Confined (step : Supervised → Scene → Scene × Supervised) : Prop where
  child : ∀ p s, (step p s).2.child = p.child
  proceeds : ∀ p s, System.Proceeds (fun _ _ => True) s.system (step p s).1.system
  others : ∀ p s (i : Nat), p.child ≠ i →
    (step p s).1.system.children[i]? = s.system.children[i]?

section

variable {step : Supervised → Scene → Scene × Supervised}

theorem frame_stepProcess (hc : Confined step) (f : Fleet) (id : ProcessId) :
    Frame f (stepProcess step f id) := by
  unfold stepProcess
  split
  · exact .refl f
  next p hp =>
    have hs := hc.proceeds p f.scene
    refine ⟨hs.now, by simp, fun hf => ⟨?_, fun other q hq => ?_⟩, hs.listed, hs.upcoming⟩
    · simpa using hs.size.trans hf.size
    · rw [Array.getElem?_setIfInBounds] at hq
      split at hq
      next he =>
        subst he
        obtain ⟨-, rfl⟩ : _ ∧ (step p f.scene).2 = q := by simpa using hq
        exact (hc.child p f.scene).trans (hf.child id p hp)
      · exact hf.child other q hq

theorem frame_stepEach (hc : Confined step) (ids : List ProcessId) (f : Fleet) :
    Frame f (f.stepEach step ids) := by
  induction ids generalizing f with
  | nil => exact .refl f
  | cons id ids ih => exact (frame_stepProcess hc f id).trans (ih _)

def Stepped (step : Supervised → Scene → Scene × Supervised) (now : Instant) (p : Supervised)
    (c : Child) (q : Supervised) (d : Child) : Prop :=
  ∃ s : Scene, s.now = now ∧ s.system.children[p.child]? = some c ∧ q = (step p s).2 ∧
    (step p s).1.system.children[p.child]? = some d

theorem view_stepProcess (hc : Confined step) (hf : f.Paired)
    (hv : (stepProcess step f id).view? other = some (q, d)) :
    id ≠ other ∧ f.view? other = some (q, d) ∨
      id = other ∧ ∃ p c, f.view? id = some (p, c) ∧ Stepped step f.now p c q d := by
  unfold stepProcess at hv
  cases hp : f.processes[id]? with
  | none =>
    rw [hp] at hv
    have hne : id ≠ other := by
      rintro rfl
      rw [(view?_eq_some_iff.mp hv).1] at hp
      cases hp
    exact .inl ⟨hne, hv⟩
  | some p =>
    rw [hp] at hv
    obtain ⟨hq, hd⟩ := view?_eq_some_iff.mp hv
    dsimp only at hq hd
    by_cases he : id = other
    · subst he
      obtain ⟨c, hpc⟩ := hf.of_process hp
      rw [Array.getElem?_setIfInBounds_self_of_lt (Array.getElem?_eq_some_iff.mp hp).1] at hq
      obtain rfl := Option.some.inj hq
      rw [hc.child] at hd
      exact .inr ⟨rfl, p, c, hpc, f.scene, rfl, (view?_eq_some_iff.mp hpc).2, rfl, hd⟩
    · rw [Array.getElem?_setIfInBounds_ne he] at hq
      have hne : p.child ≠ q.child := by
        rw [hf.child id p hp, hf.child other q hq]
        exact he
      rw [hc.others p f.scene q.child hne] at hd
      exact .inl ⟨he, view?_eq_some_iff.mpr ⟨hq, hd⟩⟩

/-- Of a step that is taken with some processes, each of them sees only its own. -/
theorem view_stepEach (hc : Confined step) {ids : List ProcessId} (hn : ids.Nodup) (hf : f.Paired)
    (hv : (f.stepEach step ids).view? id = some (q, d)) :
    id ∉ ids ∧ f.view? id = some (q, d) ∨
      id ∈ ids ∧ ∃ p c, f.view? id = some (p, c) ∧ Stepped step f.now p c q d := by
  induction ids generalizing f with
  | nil => exact .inl ⟨List.not_mem_nil, hv⟩
  | cons first ids ih =>
    obtain ⟨hfirst, hids⟩ := List.nodup_cons.mp hn
    have hframe := frame_stepProcess hc f first
    rcases ih hids (hframe.paired hf) hv with ⟨hnot, hv⟩ | ⟨hmem, p, c, hv, hs⟩
    · rcases view_stepProcess hc hf hv with ⟨hne, hv⟩ | ⟨rfl, hs⟩
      · exact .inl ⟨List.not_mem_cons_of_ne_of_not_mem (Ne.symm hne) hnot, hv⟩
      · exact .inr ⟨List.mem_cons_self, hs⟩
    · rw [hframe.now] at hs
      rcases view_stepProcess hc hf hv with ⟨-, hv⟩ | ⟨rfl, -⟩
      · exact .inr ⟨List.mem_cons_of_mem first hmem, p, c, hv, hs⟩
      · exact absurd hmem hfirst

end

theorem confined_readOutput : Confined Supervised.readOutput := by
  have hchunks : ∀ (chunks : List (List UInt8)) (p : Supervised),
      (p.readChunks chunks).1.child = p.child := by
    intro chunks
    induction chunks with
    | nil => exact fun p => rfl
    | cons bytes chunks ih =>
      intro p
      rw [Supervised.readChunks]
      split
      · refine (ih _).trans ?_
        unfold Supervised.readChunk
        split
        · rfl
        · rfl
      · rfl
  refine ⟨fun p s => ?_, fun p s => ?_, fun p s i hi => ?_⟩
  · unfold Supervised.readOutput
    split
    · split
      · rfl
      · exact hchunks _ p
    · rfl
  · unfold Supervised.readOutput
    split
    · split
      · exact .refl (fun _ => trivial) _
      · exact System.proceeds_emptyPipe _ _
    · exact .refl (fun _ => trivial) _
  · unfold Supervised.readOutput
    split
    · split
      · rfl
      · simp [Scene.report, System.emptyPipe, System.onPipe, Array.getElem?_modify, hchunks, hi]
    · rfl

theorem confined_of_system {step : Supervised → Scene → Scene × Supervised}
    (hchild : ∀ p s, (step p s).2.child = p.child)
    (hsystem : ∀ p s, (step p s).1.system = s.system) : Confined step where
  child := hchild
  proceeds p s := by
    rw [hsystem]
    exact .refl (fun _ => trivial) _
  others p s i _ := by rw [hsystem]

theorem system_noticeExit (p : Supervised) (s : Scene) : (p.noticeExit s).1.system = s.system := by
  unfold Supervised.noticeExit
  split <;> rfl

theorem system_giveUpReading (p : Supervised) (s : Scene) :
    (p.giveUpReading s).1.system = s.system := by
  unfold Supervised.giveUpReading
  split
  · split <;> rfl
  · rfl

theorem system_reportEnd (p : Supervised) (s : Scene) : (p.reportEnd s).1.system = s.system := by
  unfold Supervised.reportEnd
  split <;> rfl

theorem child_complete (p : Supervised) (code : Int) : (p.complete code).1.child = p.child := by
  have hrest : p.recordRest.1.child = p.child := by
    unfold Supervised.recordRest
    split <;> rfl
  exact hrest

theorem confined_noticeExit : Confined Supervised.noticeExit := by
  refine confined_of_system (fun p s => ?_) system_noticeExit
  unfold Supervised.noticeExit
  split <;> rfl

theorem confined_giveUpReading : Confined Supervised.giveUpReading := by
  refine confined_of_system (fun p s => ?_) system_giveUpReading
  unfold Supervised.giveUpReading
  split
  · split <;> rfl
  · rfl

theorem confined_reportEnd : Confined Supervised.reportEnd := by
  refine confined_of_system (fun p s => ?_) system_reportEnd
  unfold Supervised.reportEnd
  split
  · exact child_complete p _
  · exact child_complete p _
  · rfl

theorem frame_readOutputs (f : Fleet) : Frame f f.readOutputs :=
  frame_stepEach confined_readOutput _ f

theorem view_readOutputs (hf : f.Paired) (hv : f.readOutputs.view? id = some (q, d)) :
    ∃ p c, f.view? id = some (p, c) ∧ Stepped Supervised.readOutput f.now p c q d := by
  rcases view_stepEach confined_readOutput List.nodup_range hf hv with ⟨hnot, hv⟩ | ⟨-, hs⟩
  · exact absurd (List.mem_range.mpr (lt_of_view hv)) hnot
  · exact hs

theorem ended_eq (hf : f.Paired) (hl : f.scene.system.Listed) :
    f.ended = f.scene.system.endings.toList := by
  have hfind : ∀ c ∈ f.scene.system.endings.toList,
      f.processes.findIdx? (·.child == c) = some c := by
    intro c hc
    have hcode := (hl.2 c).mp (Array.mem_toList_iff.mp hc)
    have hlt : c < f.processes.size := by
      by_contra hn
      have hnone : f.scene.system.children[c]? = none :=
        Array.getElem?_eq_none (hf.size ▸ Nat.le_of_not_lt hn)
      simp [System.exitCode?, hnone] at hcode
    refine Array.findIdx?_eq_some_iff_getElem.mpr ⟨hlt, ?_, fun j hj => ?_⟩
    · exact beq_iff_eq.mpr (hf.child c _ (Array.getElem?_eq_getElem hlt))
    · have hjlt : j < f.processes.size := Nat.lt_trans hj hlt
      rw [hf.child j _ (Array.getElem?_eq_getElem hjlt)]
      simpa using Nat.ne_of_lt hj
  unfold ended
  generalize f.scene.system.endings.toList = cs at hfind
  induction cs with
  | nil => rfl
  | cons c cs ih =>
    rw [List.filterMap_cons, hfind c List.mem_cons_self]
    exact congrArg _ (ih fun x hx => hfind x (List.mem_cons_of_mem c hx))

theorem frame_watchEnds (f : Fleet) : Frame f f.watchEnds :=
  ((frame_stepEach confined_noticeExit _ f).trans (frame_stepEach confined_giveUpReading _ _)).trans
    (frame_stepEach confined_reportEnd _ _)

theorem Stepped.of_system {step : Supervised → Scene → Scene × Supervised} {now : Instant}
    (hs : ∀ p s, (step p s).1.system = s.system) (h : Stepped step now p c q d) : d = c := by
  obtain ⟨s, -, hc, -, hd⟩ := h
  rw [hs] at hd
  exact Option.some.inj (hd.symm.trans hc)

theorem view_watchEnds (hf : f.Paired) (hl : f.scene.system.Listed)
    (hv : f.watchEnds.view? id = some (q, d)) :
    d.exitCode = none ∧ f.view? id = some (q, d) ∨
      ∃ p noticed last, f.view? id = some (p, d) ∧ d.exitCode.isSome = true ∧
        Stepped Supervised.noticeExit f.now p d noticed d ∧
        Stepped Supervised.giveUpReading f.now noticed d last d ∧
        Stepped Supervised.reportEnd f.now last d q d := by
  have hn : f.ended.Nodup := by
    rw [ended_eq hf hl]
    exact hl.1
  have hmem : ∀ {p c}, f.view? id = some (p, c) → (id ∈ f.ended ↔ c.exitCode.isSome = true) := by
    intro p c hv
    rw [ended_eq hf hl, Array.mem_toList_iff, hl.2, System.exitCode?, hf.children hv]
    rfl
  have hnotice := frame_stepEach confined_noticeExit f.ended f
  have hgiveUp := frame_stepEach confined_giveUpReading f.ended
    (f.stepEach Supervised.noticeExit f.ended)
  -- the three steps are taken with the same processes: from the last one back to the first
  rcases view_stepEach confined_reportEnd hn (hgiveUp.paired (hnotice.paired hf)) hv with
    ⟨hnot, hv⟩ | ⟨hin, last, c, hv, hreport⟩
  · rcases view_stepEach confined_giveUpReading hn (hnotice.paired hf) hv with ⟨-, hv⟩ | ⟨hin, -⟩
    · rcases view_stepEach confined_noticeExit hn hf hv with ⟨-, hv⟩ | ⟨hin, -⟩
      · rw [hmem hv] at hnot
        exact .inl ⟨by simpa using hnot, hv⟩
      · exact absurd hin hnot
    · exact absurd hin hnot
  · obtain rfl := hreport.of_system system_reportEnd
    rcases view_stepEach confined_giveUpReading hn (hnotice.paired hf) hv with
      ⟨hnot, -⟩ | ⟨-, noticed, c, hv, hgive⟩
    · exact absurd hin hnot
    · obtain rfl := hgive.of_system system_giveUpReading
      rcases view_stepEach confined_noticeExit hn hf hv with ⟨hnot, -⟩ | ⟨-, p, c, hv, hfirst⟩
      · exact absurd hin hnot
      · obtain rfl := hfirst.of_system system_noticeExit
        rw [hgiveUp.now, hnotice.now] at hreport
        rw [hnotice.now] at hgive
        exact .inr ⟨p, noticed, last, hv, (hmem hv).mp hin, hfirst, hgive, hreport⟩

theorem view_advance {t : Instant} (hv : (f.advance t).view? id = some (q, d)) (hf : f.Paired) :
    ∃ c, f.view? id = some (q, c) ∧ c.Later d := by
  obtain ⟨hq, hd⟩ := view?_eq_some_iff.mp hv
  obtain ⟨c, hc⟩ := hf.of_process hq
  obtain ⟨e, he, hlater⟩ := (System.onward_advance f.scene.system t).each _ c
    (view?_eq_some_iff.mp hc).2
  obtain rfl := Option.some.inj (hd.symm.trans he)
  exact ⟨c, hc, hlater⟩

end

end Fleet

end Overseer

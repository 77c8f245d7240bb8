import Dcn.Sync.Lifecycle

/-! Each coroutine runs once, and each future gives its own result.

The stages of the calls say the first and, with what is in the boxes, the
second. That no worker sleeps through a submission is a matter of the queue's
condition alone.
-/

set_option autoImplicit false

namespace Dcn

namespace Loop

variable {ω : Type}

def Roused (l : Loop ω) : Prop :=
  l.q.blocks ≠ [] → ∀ _ : ω, (∃ w, ¬l.Asleep w) ∨ ∃ n fut, l.calls n = .signal fut

section Roused

variable {l m : Loop ω}

theorem Roused.mono (roused : l.Roused) (queue : m.q.blocks ≠ [] → l.q.blocks ≠ [])
    (awake : ∀ w, ¬l.Asleep w → ¬m.Asleep w) (signals : ∀ n fut, l.calls n = .signal fut → m.calls n = .signal fut) :
    m.Roused := by
  intro tasks v
  rcases roused (queue tasks) v with ⟨w, up⟩ | ⟨n, fut, coming⟩
  · exact .inl ⟨w, awake w up⟩
  · exact .inr ⟨n, fut, signals n fut coming⟩

theorem roused_of_awake {w : ω} (up : m.workers w ≠ .waiting) : m.Roused :=
  fun _ _ => .inl ⟨w, fun asleep => up asleep.1⟩

theorem roused_of_signal {n : Nat} {fut : UInt64} (coming : m.calls n = .signal fut) : m.Roused :=
  fun _ _ => .inr ⟨n, fut, coming⟩

variable [DecidableEq ω]

theorem roused_goto {w : ω} {pc : WorkerPc} (up : pc ≠ .waiting) : (l.goto w pc).Roused :=
  @roused_of_awake ω (l.goto w pc) w (by simpa [goto] using up)

theorem roused_signal {call : Nat} {fut : UInt64} (choice : Nat) :
    ({ l with hasTasks := l.hasTasks.signal choice }.callGoto call (.returned fut)).Roused := by
  intro tasks v
  by_cases up : ∃ w, ¬l.Asleep w
  · obtain ⟨w, up⟩ := up
    refine .inl ⟨w, fun asleep => up ⟨asleep.1, ?_⟩⟩
    exact (Condition.mem_signal.mp asleep.2).1
  · have all : ∀ w, l.Asleep w := fun w => by_contra fun awake => up ⟨w, awake⟩
    have some : l.hasTasks.waiting ≠ [] := List.ne_nil_of_mem (all v).2
    have bound : choice % l.hasTasks.waiting.length < l.hasTasks.waiting.length :=
      Nat.mod_lt _ (List.length_pos_iff.mpr some)
    refine .inl ⟨l.hasTasks.waiting[choice % l.hasTasks.waiting.length], fun asleep => ?_⟩
    exact (Condition.mem_signal.mp asleep.2).2 (List.getElem?_eq_getElem bound)

theorem roused_take (roused : l.Roused) (w : ω) : (l.take w).Roused := by
  unfold take
  cases shape : l.q.blocks with
  | nil =>
    simp only [popBlock_nil shape]
    intro tasks
    exact absurd shape tasks
  | cons block rest =>
    simp only [popBlock_cons shape]
    cases genericQbout block 16 with
    | none => exact roused
    | some bytes => exact roused_goto (by simp)

theorem roused_step (roused : l.Roused) (e : LoopEvent ω) : (l.step e).Roused := by
  cases e with
  | create call crt fut padding =>
    simp only [step]
    split
    · next before =>
      refine roused.mono id (fun w up => up) fun n other coming => ?_
      have apart : n ≠ call := by
        intro same
        rw [same, before] at coming
        cases coming
      simpa [asyncCreate, callGoto, putFuture, putCoroutine, apart] using coming
    · exact roused
  | push call =>
    simp only [step]
    split
    · next block fut _ => exact @roused_of_signal ω _ call fut (by simp [callGoto])
    · exact roused
  | signal call choice =>
    simp only [step]
    split
    · exact roused_signal choice
    · exact roused
  | take w =>
    simp only [step]
    split
    · exact roused_take roused w
    · exact roused
  | wake w => exact roused.mono id (fun v up asleep => up ⟨asleep.1, (Condition.mem_release.mp asleep.2).1⟩) fun _ _ => id
  | start w =>
    simp only [step]
    repeat' split
    all_goals first | exact roused | exact roused_goto (by simp)
  | finish w result =>
    simp only [step]
    repeat' split
    all_goals first | exact roused | exact roused_goto (by simp)
  | store w =>
    simp only [step]
    split
    · exact roused_goto (by simp)
    · exact roused
  | await fut =>
    simp only [step]
    repeat' split
    all_goals exact roused
  | release fut =>
    simp only [step]
    split <;> exact roused

end Roused

section Tracked

variable [DecidableEq ω] {l : Loop ω} {stage : Nat → Stage ω} {line : List Nat}

omit [DecidableEq ω] in
theorem free_of_enters {w : ω} (enters : l.Enters w) : (l.workers w).free = true := by
  rcases enters with check | ⟨waiting, -⟩
  · rw [check]
    rfl
  · rw [waiting]
    rfl

theorem tracked_step (tracks : l.Tracks stage line) (e : LoopEvent ω) (admitted : l.Admits e) :
    ∃ stage line, (l.step e).Tracks stage line := by
  have same : ∃ stage line, l.Tracks stage line := ⟨stage, line, tracks⟩
  cases e with
  | create call crt fut padding =>
    simp only [step]
    split
    · next before => exact ⟨_, _, tracks_create tracks padding before admitted⟩
    · exact same
  | push call =>
    simp only [step]
    split
    · next block fut pushing =>
      obtain ⟨crt, moved⟩ := tracks_push tracks pushing
      exact ⟨_, _, moved⟩
    · exact same
  | signal call choice =>
    simp only [step]
    split
    · next fut signalling => exact ⟨_, _, tracks_signal tracks signalling _⟩
    · exact same
  | take w =>
    simp only [step]
    split
    · next enters => exact tracks_take tracks (free_of_enters enters)
    · exact same
  | wake w => exact ⟨_, _, tracks_wait tracks _⟩
  | start w =>
    cases here : l.workers w with
    | took task =>
      obtain ⟨next, moved⟩ := tracks_start tracks here
      exact ⟨next, _, moved⟩
    | _ => simpa only [step, here] using same
  | finish w result =>
    cases here : l.workers w with
    | running fut crt =>
      obtain ⟨next, moved⟩ := tracks_finish tracks result here
      exact ⟨next, _, moved⟩
    | _ => simpa only [step, here] using same
  | store w =>
    cases here : l.workers w with
    | store fut =>
      obtain ⟨next, moved⟩ := tracks_store tracks here
      exact ⟨next, _, moved⟩
    | _ => simpa only [step, here] using same
  | await fut =>
    simp only [step]
    split
    · next box found =>
      split
      · next isReady =>
        obtain ⟨next, moved⟩ := tracks_await tracks found isReady
        exact ⟨next, _, moved⟩
      · exact same
    · exact same
  | release fut =>
    simp only [step]
    split
    · next freed =>
      refine ⟨_, _, tracks_forget tracks (fun box found => ?_) fun box none => by cases none⟩
      simpa [found] using freed
    · exact same

omit [DecidableEq ω] in
theorem tracks_init : (init ω).Tracks (fun _ => .absent) [] where
  futures := Custody.empty _
  coroutines := Custody.empty _
  workers := by
    refine ⟨fun n w pc has => ?_, fun w pc found busy => ?_, fun n m w pc other has => ?_⟩
    · cases has
    · cases found
      cases busy
    · cases has
  calls n := rfl
  lined := ⟨fun n => by simp [Stage.task], List.nodup_nil, rfl, fun block member => by cases member⟩
  recorded := by
    refine ⟨fun n => ?_, List.nodup_nil, fun n => ?_, List.nodup_nil, fun n r has => ?_⟩
    · simp [init, Stage.started]
    · simp [init, Stage.returned]
    · cases has

end Tracked

section Served

variable {l : Loop ω} {stage : Nat → Stage ω} {line : List Nat}

theorem submitted_of_callAt {n : Nat} {s : Stage ω} (callAt : s.CallAt (l.calls n)) (started : s.started = true) :
    l.Submitted n := by
  cases s with
  | absent => cases started
  | created fut crt => cases started
  | _ => exact callAt

theorem leads_queued (tracks : l.Tracks stage line) {n : Nat} {fut crt : UInt64} (queued : stage n = .queued fut crt) :
    ∃ block ∈ l.q.blocks, l.Leads (.ofBytes block) n := by
  have inLine : n ∈ line := (tracks.lined.inside n).mpr (by rw [queued]; rfl)
  have image : (stage n).task ∈ line.map fun n => (stage n).task := List.mem_map_of_mem inLine
  rw [← tracks.lined.tasks, queued] at image
  obtain ⟨block, member, isTask⟩ := List.mem_map.mp image
  have isTask : Task.ofBytes block = ⟨true, fut⟩ := Option.some.inj isTask
  refine ⟨block, member, ?_⟩
  rw [isTask]
  exact ⟨rfl, crt, leads_of_boxes tracks (by rw [queued]; rfl) (by rw [queued]; rfl)⟩

theorem kept_of_tracks (tracks : l.Tracks stage line) {n : Nat} (submitted : l.Submitted n) :
    n ∈ l.started ∨ (∃ block ∈ l.q.blocks, l.Leads (.ofBytes block) n) ∨
      ∃ w task, l.workers w = .took task ∧ l.Leads task n := by
  have callAt := tracks.calls n
  obtain ⟨fut, past⟩ := submitted
  cases found : stage n with
  | absent =>
    rw [found] at callAt
    rcases past with past | past <;> rw [past] at callAt <;> cases callAt
  | created other crt =>
    rw [found] at callAt
    obtain ⟨padding, pushing⟩ := callAt
    rcases past with past | past <;> rw [past] at pushing <;> cases pushing
  | queued other crt => exact .inr (.inl (leads_queued tracks found))
  | taken w other crt =>
    have has := (tracks.workers.holds n w (.took ⟨true, other⟩) (by rw [found]; rfl)).1
    have leads := leads_of_boxes tracks (by rw [found]; rfl) (by rw [found]; rfl)
    exact .inr (.inr ⟨w, ⟨true, other⟩, Option.some.inj has, rfl, crt, leads⟩)
  | _ => exact .inl ((tracks.recorded.started n).mpr (by rw [found]; rfl))

theorem served_of_tracks (tracks : l.Tracks stage line) (roused : l.Roused) : l.Served where
  once := tracks.recorded.once
  called n member := submitted_of_callAt (tracks.calls n) ((tracks.recorded.started n).mp member)
  kept n submitted := kept_of_tracks tracks submitted
  awake := roused
  results f fut found isReady pool := by
    obtain ⟨n, crt, r, ready, isBox⟩ := ready_of_isReady tracks found isReady pool
    subst isBox
    rw [await_loopWorkerOut]
    exact tracks.recorded.result n r (by rw [ready]; rfl)
  own := tracks.recorded.own
  ran p member := by
    have returned := (tracks.recorded.returned p.1).mp (List.mem_map_of_mem member)
    refine (tracks.recorded.started p.1).mpr ?_
    cases found : stage p.1 <;> rw [found] at returned <;> first | rfl | cases returned

end Served

variable [DecidableEq ω]

/-- The next place of a call; only its own steps move it on. -/
theorem calls_step (l : Loop ω) (e : LoopEvent ω) (n : Nat) :
    (l.step e).calls n = match e, l.calls n with
      | .create call _ fut padding, .before =>
        if call = n then .push (Task.bytes ⟨fut ≠ 0, fut⟩ padding) fut else .before
      | .push call, .push block fut => if call = n then .signal fut else .push block fut
      | .signal call _, .signal fut => if call = n then .returned fut else .signal fut
      | _, pc => pc := by
  cases e with
  | create call crt fut padding =>
    by_cases same : call = n
    · subst same
      cases at_ : l.calls call <;> simp [step, at_, asyncCreate, callGoto, putFuture, putCoroutine]
    · have other : n ≠ call := Ne.symm same
      simp only [step]
      cases at_ : l.calls n <;> split <;> simp [at_, same, other, asyncCreate, callGoto, putFuture, putCoroutine]
  | push call =>
    by_cases same : call = n
    · subst same
      cases at_ : l.calls call <;> simp [step, at_, callGoto]
    · have other : n ≠ call := Ne.symm same
      simp only [step]
      cases at_ : l.calls n <;> split <;> simp [at_, same, other, callGoto]
  | signal call choice =>
    by_cases same : call = n
    · subst same
      cases at_ : l.calls call <;> simp [step, at_, callGoto]
    · have other : n ≠ call := Ne.symm same
      simp only [step]
      cases at_ : l.calls n <;> split <;> simp [at_, same, other, callGoto]
  | take w =>
    simp only [step, take]
    repeat' split
    all_goals rfl
  | wake w => rfl
  | start w | finish w result | store w | await fut | release fut =>
    simp only [step]
    repeat' split
    all_goals rfl

theorem submitted_step (n : Nat) (l : Loop ω) (e : LoopEvent ω) (submitted : l.Submitted n) : (l.step e).Submitted n := by
  have next := calls_step l e n
  obtain ⟨fut, signals | returned⟩ := submitted
  · rw [signals] at next
    cases e with
    | signal call choice =>
      refine ⟨fut, ?_⟩
      rw [next]
      dsimp only
      split
      · exact .inr rfl
      · exact .inl rfl
    | _ => exact ⟨fut, .inl next⟩
  · rw [returned] at next
    refine ⟨fut, .inr ?_⟩
    cases e <;> exact next

theorem submitted_of_pushing {l : Loop ω} {n : Nat} {block : Block} {fut : UInt64} (pushing : l.calls n = .push block fut)
    (events : List (LoopEvent ω)) : (Runs.run step l events).Submitted n ↔ .push n ∈ events := by
  induction events generalizing l with
  | nil => simp [Submitted, pushing]
  | cons e rest ih =>
    have next := calls_step l e n
    rw [pushing] at next
    rw [Runs.run_cons, List.mem_cons]
    cases e with
    | push call =>
      dsimp only at next
      by_cases same : call = n
      · rw [if_pos same] at next
        have kept := Runs.throughout_of_preserved_all (submitted_step n) ⟨fut, .inl next⟩ rest
        exact iff_of_true kept.last (.inl (by rw [same]))
      · rw [if_neg same] at next
        simpa [Ne.symm same] using ih next
    | _ => simpa using ih next

theorem submitted_iff {l : Loop ω} {n : Nat} (before : l.calls n = .before) (events : List (LoopEvent ω)) :
    (Runs.run step l events).Submitted n ↔ Submits events n := by
  induction events generalizing l with
  | nil => simp [Submitted, Submits, before]
  | cons e rest ih =>
    have next := calls_step l e n
    rw [before] at next
    rw [Runs.run_cons]
    cases e with
    | create call crt fut padding =>
      dsimp only at next
      by_cases same : call = n
      · subst same
        rw [if_pos rfl] at next
        rw [submitted_of_pushing next]
        constructor
        · exact fun member => ⟨_, _, _, (List.singleton_sublist.mpr member).cons_cons _⟩
        · rintro ⟨_, _, _, listed⟩
          exact List.singleton_sublist.mp listed.of_cons_cons
      · rw [if_neg same] at next
        rw [ih next]
        refine exists_congr fun _ => exists_congr fun _ => exists_congr fun _ => ⟨fun listed => listed.cons _, ?_⟩
        intro listed
        cases listed with
        | cons _ listed => exact listed
        | cons_cons => exact absurd rfl same
    | _ =>
      rw [ih next]
      refine exists_congr fun _ => exists_congr fun _ => exists_congr fun _ => ⟨fun listed => listed.cons _, ?_⟩
      intro listed
      cases listed with
      | cons _ listed => exact listed

theorem tracked_throughout {events : List (LoopEvent ω)} (admitted : Runs.Along step Admits (init ω) events) :
    Runs.Throughout step (fun l : Loop ω => (∃ stage line, l.Tracks stage line) ∧ l.Roused) (init ω) events := by
  refine Runs.throughout_of_preserved (fun l e ⟨⟨stage, line, tracks⟩, roused⟩ allowed => ?_) ?_ admitted
  · exact ⟨tracked_step tracks e allowed, roused_step roused e⟩
  · exact ⟨⟨_, _, tracks_init⟩, fun tasks => absurd rfl tasks⟩

/-- With any number of workers, and however their steps and those of the calls
are interleaved, every coroutine runs once and its future gives its result. -/
theorem served_throughout {events : List (LoopEvent ω)} (admitted : Runs.Along step Admits (init ω) events) :
    Runs.Throughout step Served (init ω) events ∧
      ∀ n, (Runs.run step (init ω) events).Submitted n ↔ Submits events n :=
  ⟨(tracked_throughout admitted).mono fun _ ⟨⟨_, _, tracks⟩, roused⟩ => served_of_tracks tracks roused,
    fun _ => submitted_iff rfl events⟩

/-- Two workers and two calls; the second coroutine returns NULL, first. Its
future is awaited, and both its addresses are used again by a third call. -/
def twoWorkers : List (LoopEvent Bool) :=
  [.take false, .create 0 16 64 (fun _ => 0), .create 1 32 96 (fun _ => 255), .push 1, .push 0, .signal 1 0, .signal 0 0,
   .take false, .take true, .start true, .start false, .finish false 0, .store false, .await 96, .release 96,
   .create 2 32 96 (fun _ => 1), .push 2, .signal 2 0, .take false, .finish true 400, .store true, .start false,
   .finish false 500, .store false]

theorem served_twoWorkers : Runs.Throughout step Served (init Bool) twoWorkers :=
  (served_throughout (by decide)).1

end Loop

end Dcn

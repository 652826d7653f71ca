import ConcurrentProgramming.Fast.Overflow
import ConcurrentProgramming.Fast.Standing

/-!
How long the fast pool can go on without a new call.
-/

set_option autoImplicit false

namespace ConcurrentProgramming.Fast
open Interleaving

/-- What nobody has to do. -/
def PoolLabel.offered {n : Nat} {O T : Type} : PoolLabel n O T → Bool
  | .execute _ _ _ | .submit _ _ | .spurious _ | .callWaitIdle | .callStop => true
  | .worker _ _ | .return_ _ | .throw _ | .outside _ _ | .waitIdle | .stop => false

/-- A round of `PickNextTask` that finds nothing, with the share that one round in ten
has in waking another worker. -/
def roundAhead (n : Nat) : Nat := 18 + 4 * ((n + 1) / 2)

/-- A queued task is worth the round that follows it. -/
def taskAhead (n : Nat) : Nat := roundAhead n + 3

/-- Whoever prohibits parking wakes a worker and may send every other one round again. -/
def prohibitAhead (n : Nat) : Nat := n * roundAhead n + roundAhead n + 2

def Execute.ahead {T : Type} (n : Nat) : Execute T → Nat
  | .discard _ => 1
  | .prohibitParking => prohibitAhead n
  | .discardPushed _ => prohibitAhead n + 1
  | .pushOneLocked _ => prohibitAhead n + 1 + taskAhead n
  | .pushOne _ => prohibitAhead n + 2 + taskAhead n
  | .awakeOne => roundAhead n + 2
  | .discardOffloaded buffer => roundAhead n + 3 + buffer.length
  | .offloadLocked buffer => roundAhead n + 3 + taskAhead n * buffer.length
  | .offload buffer => roundAhead n + 4 + taskAhead n * buffer.length
  | .grab _ => roundAhead n + 5 + taskAhead n * 128
  | .tryPush _ => roundAhead n + 6 + taskAhead n * 128
  | .pushToLocalQueue _ => roundAhead n + 7 + taskAhead n * 128
  | .pushToLifoSlot _ => 2 * roundAhead n + 8 + taskAhead n * 129

namespace Work

/-- The steps to the end of the round, or of the worker once it has been stopped. -/
def ahead {n : Nat} {T : Type} (stopped : Bool) : Work n T → Nat
  | .asleep | .exited => 0
  | .drain => 1
  | .discardLifo | .discardDrained _ => 2
  | .release => 3
  | .tryPark => 5
  | .lifoCheck => 6
  | .giveVictim remaining => 7 + 3 * remaining
  | .steal remaining _ _ => 8 + 3 * remaining
  | .lowSize remaining _ => 9 + 3 * remaining
  | .pushStolen _ rest => 7 + taskAhead n * (rest.length + 1)
  | .impudence => 8 + 3 * ((n + 1) / 2)
  | .pushGrabbed _ rest => 9 + 3 * ((n + 1) / 2) + taskAhead n * (rest.length + 1)
  | .grabAgain => 10 + 3 * ((n + 1) / 2)
  | .allowParking => 11 + 3 * ((n + 1) / 2)
  | .grab => 12 + 3 * ((n + 1) / 2)
  | .tryPop => 13 + 3 * ((n + 1) / 2)
  | .lifo => 14 + 3 * ((n + 1) / 2)
  | .awakeOne => 16 + 3 * ((n + 1) / 2) + roundAhead n
  | .pick => if stopped then 4 else roundAhead n
  | .notified => if stopped then 5 else roundAhead n + 1
  | .discardRun _ => roundAhead n + 1
  | .run _ => roundAhead n + 2
  | .execute _ e => roundAhead n + 2 + e.ahead n

/-- Past the look at the LIFO slot, which waits for the next round. -/
def swept {n : Nat} {T : Type} : Work n T → Bool
  | .tryPop | .grab | .allowParking | .grabAgain | .pushGrabbed _ _ | .impudence | .giveVictim _
  | .lowSize _ _ | .steal _ _ _ | .pushStolen _ _ | .lifoCheck => true
  | _ => false

/-- Past `AllowParking`, so that a permission that is missing costs a round. -/
def parks {n : Nat} {T : Type} : Work n T → Bool
  | .grabAgain | .impudence | .giveVictim _ | .lowSize _ _ | .steal _ _ _ | .lifoCheck
  | .tryPark => true
  | _ => false

end Work

/-- What holds of a place of some kind holds of one that is not of that kind. -/
theorem unmet {kind : Bool} {P : Prop} (h : kind = false) : kind = true → P := by
  intro hkind
  rw [h] at hkind
  cases hkind

namespace Worker

def slotAhead {n : Nat} {T : Type} (x : Worker n T) : Nat :=
  match x.lifoSlot with
  | none => 0
  | some _ => taskAhead n + (if kLifoLimit ≤ x.lifoUsage then roundAhead n else 0) +
    if x.work.swept then roundAhead n else 0

def parkAhead {n : Nat} {T : Type} (permission : SleepingState) (x : Worker n T) : Nat :=
  if permission ≠ .allowed ∧ x.stopped = false ∧ x.work.parks = true then roundAhead n else 0

def ahead {n : Nat} {T : Type} (permission : SleepingState) (x : Worker n T) : Nat :=
  x.work.ahead x.stopped + taskAhead n * x.localTasks.length + ((n + 1) / 2 + 2) * x.cycle +
    x.slotAhead + x.parkAhead permission

theorem parkAhead_le {n : Nat} {T : Type} (permission : SleepingState) (x : Worker n T) :
    x.parkAhead permission ≤ roundAhead n := by
  unfold parkAhead
  split <;> omega

theorem ahead_permission {n : Nat} {T : Type} (permission permission' : SleepingState)
    (x : Worker n T) : x.ahead permission' ≤ x.ahead permission + roundAhead n := by
  have hpark := x.parkAhead_le permission'
  simp only [ahead]
  omega

theorem ahead_stopped {n : Nat} {T : Type} (x : Worker n T) (permission : SleepingState) :
    ({ x with stopped := true } : Worker n T).ahead permission ≤ x.ahead permission := by
  have hround : roundAhead n = 18 + 4 * ((n + 1) / 2) := rfl
  have hwork : x.work.ahead true ≤ x.work.ahead x.stopped := by
    cases x.work with
    | pick =>
      show 4 ≤ if x.stopped = true then 4 else roundAhead n
      split <;> omega
    | notified =>
      show 5 ≤ if x.stopped = true then 5 else roundAhead n + 1
      split <;> omega
    | _ => exact Nat.le_refl _
  have hslot : ({ x with stopped := true } : Worker n T).slotAhead = x.slotAhead := rfl
  have hpark : ({ x with stopped := true } : Worker n T).parkAhead permission = 0 := by
    simp [parkAhead]
  simp only [ahead, hslot, hpark]
  omega

/-- A step that leaves the slot and the counters alone. -/
structure Keeps {n : Nat} {T : Type} (x y : Worker n T) : Prop where
  stopped : y.stopped = x.stopped
  cycle : y.cycle = x.cycle
  lifoSlot : y.lifoSlot = x.lifoSlot
  lifoUsage : y.lifoUsage = x.lifoUsage
  swept : y.work.swept = true → x.work.swept = true

theorem Keeps.slotAhead_le {n : Nat} {T : Type} {x y : Worker n T} (h : x.Keeps y) :
    y.slotAhead ≤ x.slotAhead := by
  unfold slotAhead
  rw [h.lifoSlot, h.lifoUsage]
  cases x.lifoSlot with
  | none => exact Nat.le_refl _
  | some task =>
    have hswept := h.swept
    simp only
    split <;> split <;> simp_all

/-- The worker may come to stand before a missing permission, or it does not. -/
theorem Keeps.ahead_le {n : Nat} {T : Type} {x y : Worker n T} (h : x.Keeps y)
    (permission : SleepingState) :
    y.ahead permission + x.work.ahead x.stopped + taskAhead n * x.localTasks.length ≤
      x.ahead permission + y.work.ahead x.stopped + taskAhead n * y.localTasks.length +
        roundAhead n ∧
    ((y.work.parks = true → x.work.parks = true) →
      y.ahead permission + x.work.ahead x.stopped + taskAhead n * x.localTasks.length ≤
        x.ahead permission + y.work.ahead x.stopped + taskAhead n * y.localTasks.length) := by
  have hslot := h.slotAhead_le
  have hpark := y.parkAhead_le permission
  unfold ahead
  rw [h.stopped, h.cycle]
  refine ⟨by omega, fun hparks => ?_⟩
  have hless : y.parkAhead permission ≤ x.parkAhead permission := by
    unfold parkAhead
    rw [h.stopped]
    split <;> split <;> simp_all
  omega

theorem keeps_goto {n : Nat} {T : Type} (x : Worker n T) {pc : Work n T}
    (hswept : pc.swept = true → x.work.swept = true) : x.Keeps (x.goto pc) :=
  ⟨rfl, rfl, rfl, rfl, hswept⟩

/-- A worker that goes on without its ring, and was not about to park unless it is now. -/
theorem ahead_goto {n : Nat} {T : Type} (permission : SleepingState) (x : Worker n T)
    {pc : Work n T} (hswept : pc.swept = true → x.work.swept = true)
    (hparks : pc.parks = true → x.work.parks = true) :
    (x.goto pc).ahead permission + x.work.ahead x.stopped ≤
      x.ahead permission + pc.ahead x.stopped := by
  have h := ((x.keeps_goto hswept).ahead_le permission).2 hparks
  simp only [Worker.goto] at h ⊢
  omega

/-- A pointer that has been picked pays for what comes after it. -/
theorem picked_ahead {n : Nat} {T : Type} (stopped : Bool) (pc : Work n T) (item : Option T) :
    (picked pc item).ahead stopped + 1 ≤ pc.ahead stopped + taskAhead n := by
  have htask : taskAhead n = roundAhead n + 3 := rfl
  cases item with
  | none =>
    simp only [picked]
    omega
  | some task =>
    simp only [picked, Work.ahead]
    omega

theorem picked_parks {n : Nat} {T : Type} {pc : Work n T} {item : Option T}
    (h : (picked pc item).parks = true) : pc.parks = true := by
  cases item with
  | none => exact h
  | some task => cases h

/-- The batch that is pushed has paid for the round that may follow. -/
theorem ahead_pushMany {n : Nat} {T : Type} (permission : SleepingState) {x : Worker n T}
    {first : Option T} {rest : List (Option T)} {pc : Work n T}
    (hw : x.work = .pushGrabbed first rest ∧ pc = .impudence ∨
      x.work = .pushStolen first rest ∧ pc = .lifoCheck) :
    ({ x with localTasks := x.localTasks ++ rest, work := picked pc first } : Worker n T).ahead
      permission < x.ahead permission := by
  have htask : taskAhead n = roundAhead n + 3 := rfl
  have hswept : x.work.swept = true := by
    rcases hw with ⟨hw, -⟩ | ⟨hw, -⟩ <;> rw [hw] <;> rfl
  have hkeeps : x.Keeps { x with localTasks := x.localTasks ++ rest, work := picked pc first } :=
    ⟨rfl, rfl, rfl, rfl, fun _ => hswept⟩
  have hlength : taskAhead n * (x.localTasks ++ rest).length =
      taskAhead n * x.localTasks.length + taskAhead n * rest.length := by
    rw [List.length_append, Nat.mul_add]
  have hmine : pc.ahead x.stopped + taskAhead n * (rest.length + 1) <
      x.work.ahead x.stopped + 1 := by
    rcases hw with ⟨hw, rfl⟩ | ⟨hw, rfl⟩ <;> rw [hw] <;> simp only [Work.ahead] <;> omega
  simp only [Nat.mul_add, Nat.mul_one] at hmine
  cases first with
  | none =>
    have hle := (hkeeps.ahead_le permission).1
    simp only [hlength, picked] at hle ⊢
    omega
  | some task =>
    have hle := (hkeeps.ahead_le permission).2 (by simp [picked, Work.parks])
    have hrun : (Work.run task : Work n T).ahead x.stopped = roundAhead n + 2 := rfl
    simp only [hlength, picked] at hle ⊢
    omega

/-- The start of a round. -/
theorem ahead_pick {n : Nat} {T : Type} (permission : SleepingState) {x y : Worker n T}
    {impudence : Stealing} (hw : x.work = .pick) (h : x.localStep impudence = some y) :
    y.ahead permission < x.ahead permission := by
  have hround : roundAhead n = 18 + 4 * ((n + 1) / 2) := rfl
  simp only [localStep, hw, Option.some.injEq] at h
  subst h
  split
  · rename_i hstopped
    have hle : (x.goto .release).ahead permission + _ ≤ _ :=
      x.ahead_goto permission (by simp [Work.swept]) (by simp [Work.parks])
    simp only [hw, hstopped, Work.ahead, if_true] at hle
    omega
  · rename_i hrunning
    have hpick : x.work.ahead x.stopped = roundAhead n := by
      rw [hw]
      exact if_neg hrunning
    have hslot {work : Work n T} (hswept : work.swept = false) (cycle : Nat) :
        ({ x with cycle := cycle, work := work } : Worker n T).slotAhead = x.slotAhead := by
      have hbefore : x.work.swept = false := by rw [hw]; rfl
      simp [slotAhead, hbefore, hswept]
    have hpark {work : Work n T} (hparks : work.parks = false) (cycle : Nat) :
        ({ x with cycle := cycle, work := work } : Worker n T).parkAhead permission =
          x.parkAhead permission := by
      have hbefore : x.work.parks = false := by rw [hw]; rfl
      simp [parkAhead, hbefore, hparks]
    split
    · rename_i htenth
      have hshare : ((n + 1) / 2 + 2) * 9 ≤ ((n + 1) / 2 + 2) * x.cycle :=
        Nat.mul_le_mul_left _ (by omega)
      have hnext : (Work.awakeOne : Work n T).ahead x.stopped =
        16 + 3 * ((n + 1) / 2) + roundAhead n := rfl
      simp only [ahead, hslot (rfl : (Work.awakeOne : Work n T).swept = false),
        hpark (rfl : (Work.awakeOne : Work n T).parks = false), hpick, hnext, Nat.mul_zero]
      omega
    · have hnext : (Work.lifo : Work n T).ahead x.stopped = 14 + 3 * ((n + 1) / 2) := rfl
      simp only [ahead, hslot (rfl : (Work.lifo : Work n T).swept = false),
        hpark (rfl : (Work.lifo : Work n T).parks = false), hpick, hnext, Nat.mul_add, Nat.mul_one]
      omega

/-- The look at the LIFO slot: a task is taken, or the worker will come back for it. -/
theorem ahead_lifo {n : Nat} {T : Type} (permission : SleepingState) {x y : Worker n T}
    {impudence : Stealing} (hw : x.work = .lifo) (h : x.LocalStep impudence y) :
    y.ahead permission < x.ahead permission := by
  have htask : taskAhead n = roundAhead n + 3 := rfl
  have hpark {work : Work n T} (hparks : work.parks = false) (slot : Option T) (usage : Nat) :
      ({ x with lifoUsage := usage, lifoSlot := slot, work := work } : Worker n T).parkAhead
        permission = x.parkAhead permission := by
    have hbefore : x.work.parks = false := by rw [hw]; rfl
    simp [parkAhead, hbefore, hparks]
  cases h with
  | @lifoTask task _ hslot husage =>
    have hbefore : taskAhead n ≤ x.slotAhead := by
      simp only [slotAhead, hslot]
      omega
    have hafter : ({ x with lifoUsage := x.lifoUsage + 1, lifoSlot := none, work := .run task } :
      Worker n T).slotAhead = 0 := rfl
    simp only [ahead, hafter, hpark (rfl : (Work.run task : Work n T).parks = false), hw,
      Work.ahead]
    omega
  | noLifo _ hslot =>
    have hless : ({ x with lifoUsage := 0, work := .tryPop } : Worker n T).slotAhead ≤
        x.slotAhead := by
      cases hx : x.lifoSlot with
      | none => simp [slotAhead, hx]
      | some task =>
        have husage := Nat.le_of_not_lt (hslot task hx)
        have hreset : ¬ kLifoLimit ≤ 0 := by decide
        simp [slotAhead, hx, hw, husage, hreset, Work.swept]
    simp only [ahead, hpark (rfl : (Work.tryPop : Work n T).parks = false), hw, Work.ahead]
    omega
  | _ => simp_all

theorem ahead_localStep {n : Nat} {T : Type} (permission : SleepingState) {x y : Worker n T}
    {impudence : Stealing} (h : x.localStep impudence = some y) :
    y.ahead permission < x.ahead permission := by
  have htask : taskAhead n = roundAhead n + 3 := rfl
  have hround : roundAhead n = 18 + 4 * ((n + 1) / 2) := rfl
  have goto {pc : Work n T} (hswept : pc.swept = true → x.work.swept = true)
      (hparks : pc.parks = true → x.work.parks = true)
      (hless : pc.ahead x.stopped < x.work.ahead x.stopped) :
      (x.goto pc).ahead permission < x.ahead permission := by
    have hle := x.ahead_goto permission hswept hparks
    omega
  cases Worker.localStep_cases h with
  | stopped hw | tenth hw | next hw => exact ahead_pick permission hw h
  | lifoTask hw | noLifo hw => exact ahead_lifo permission hw (Worker.localStep_cases h)
  | @popped ans rest hw hring =>
    have hkeeps : x.Keeps { x with localTasks := rest, work := picked .grab ans } :=
      ⟨rfl, rfl, rfl, rfl, fun _ => by rw [hw]; rfl⟩
    have hle := (hkeeps.ahead_le permission).2 fun hparks => by cases picked_parks hparks
    have hpicked := picked_ahead x.stopped (.grab : Work n T) ans
    simp only [hw, hring, List.length_cons, Nat.mul_add, Nat.mul_one, Work.ahead] at hle hpicked
    omega
  | ringEmpty hw => exact goto (fun _ => by rw [hw]; rfl) (unmet rfl) (by rw [hw]; simp [Work.ahead])
  | pushMany hw => exact ahead_pushMany permission hw
  | active hw | passive hw =>
    exact goto (fun _ => by rw [hw]; rfl) (fun _ => by rw [hw]; rfl)
      (by rw [hw]; simp only [Work.ahead]; omega)
  | lifoEmpty hw => exact goto (unmet rfl) (fun _ => by rw [hw]; rfl) (by rw [hw]; simp [Work.ahead])
  | lifoFilled hw hslot =>
    obtain ⟨task, hslot⟩ := Option.isSome_iff_exists.mp hslot
    simp only [ahead, slotAhead, parkAhead, Worker.goto, hw, hslot, Work.ahead, Work.swept,
      Work.parks, Bool.false_eq_true, and_false, if_false, if_true]
    split <;> omega
  | refused hw hstopped =>
    rcases hw with hw | hw <;>
      exact goto (unmet rfl) (unmet rfl) (by rw [hw]; simp [Work.ahead, Execute.ahead]; omega)
  | lifoSlot hw hrunning hslot =>
    simp only [ahead, slotAhead, parkAhead, hw, hslot, Work.ahead, Work.swept, Execute.ahead,
      Work.parks, Bool.false_eq_true, and_false, if_false]
    split <;> omega
  | displaced hw hrunning hslot =>
    simp only [ahead, slotAhead, parkAhead, hw, hslot, Work.ahead, Work.swept, Execute.ahead,
      Work.parks, Bool.false_eq_true, and_false, if_false]
    omega
  | @pushed task next hw hroom =>
    have hkeeps : x.Keeps { x with localTasks := x.localTasks ++ [some next], work := .run task } :=
      ⟨rfl, rfl, rfl, rfl, unmet rfl⟩
    have hle := (hkeeps.ahead_le permission).2 (unmet rfl)
    simp only [hw, List.length_append, List.length_singleton, Nat.mul_add, Nat.mul_one, Work.ahead,
      Execute.ahead] at hle
    omega
  | localQueue hw | full hw | discard hw | discardOffloaded hw | offloadDiscarded hw
  | discardPushed hw =>
    exact goto (unmet rfl) (unmet rfl) (by rw [hw]; simp [Work.ahead, Execute.ahead])
  | discardRun hw =>
    refine goto (unmet rfl) (unmet rfl) ?_
    rw [hw]
    simp only [Work.ahead]
    split <;> omega
  | discardLifo hw | drainedAll hw | discardDrained hw =>
    exact goto (unmet rfl) (unmet rfl) (by rw [hw]; simp [Work.ahead])
  | @drained task rest hw hring =>
    have hkeeps : x.Keeps { x with localTasks := rest, work := .discardDrained task } :=
      ⟨rfl, rfl, rfl, rfl, unmet rfl⟩
    have hle := (hkeeps.ahead_le permission).2 (unmet rfl)
    simp only [hw, hring, List.length_cons, Nat.mul_add, Nat.mul_one, Work.ahead] at hle
    omega
  | @drainedNull rest hw hring =>
    have hkeeps : x.Keeps { x with localTasks := rest, work := .exited } :=
      ⟨rfl, rfl, rfl, rfl, unmet rfl⟩
    have hle := (hkeeps.ahead_le permission).2 (unmet rfl)
    simp only [hw, hring, List.length_cons, Nat.mul_add, Nat.mul_one, Work.ahead] at hle
    omega

end Worker

def OutsideCall.ahead {T : Type} (n : Nat) : OutsideCall T → Nat
  | .idle => 0
  | .prohibitParking => prohibitAhead n
  | .discard _ => prohibitAhead n + 1
  | .pushOneLocked _ => prohibitAhead n + 1 + taskAhead n
  | .pushOne _ => prohibitAhead n + 2 + taskAhead n

def WaitIdle.ahead : WaitIdle → Nat
  | .notCalled | .returned => 0
  | .coordinator => 1
  | .globalTasks => 2

/-- `AwakeEveryoneForever` with the joins after it. -/
def awakeAhead (n : Nat) : Nat := n * (roundAhead n + 1) + n + 2

def PoolStop.ahead {T : Type} (n : Nat) : PoolStop T → Nat
  | .notCalled | .returned => 0
  | .join i => n - i + 1
  | .awakeEveryoneForever => awakeAhead n
  | .drain => awakeAhead n + 1
  | .discard rest => awakeAhead n + 2 + rest.length
  | .storeClosed => awakeAhead n + 2
  | .stopWorkers i => awakeAhead n + 3 + (n - i)

namespace Pool

def ahead {n : Nat} {O T : Type} [Fintype O] (s : Pool n O T) : Nat :=
  tally Finset.univ (Worker.ahead s.coordinator.permission) s.workers +
    taskAhead n * s.global.queue.length + tally Finset.univ (OutsideCall.ahead n) s.outside +
    s.waitIdle.ahead + s.stop.ahead n

theorem ahead_setWorker {n : Nat} {O T : Type} [Fintype O] (s : Pool n O T) (w : Fin n)
    (y : Worker n T) (global : GlobalQueue (Option T)) {coordinator : Coordinator (Fin n)}
    (h : coordinator.permission = s.coordinator.permission) :
    ({ s.setWorker w y with global := global, coordinator := coordinator } : Pool n O T).ahead +
        (s.workers w).ahead s.coordinator.permission + taskAhead n * s.global.queue.length =
      s.ahead + y.ahead s.coordinator.permission + taskAhead n * global.queue.length := by
  have htally :=
    tally_update (Worker.ahead s.coordinator.permission) s.workers (Finset.mem_univ w) y
  simp only [ahead, setWorker, h]
  omega

/-- A worker that goes on without its ring, at the global queue. -/
theorem ahead_goto_global {n : Nat} {O T : Type} [Fintype O] (s : Pool n O T) (w : Fin n)
    {pc : Work n T} (global : GlobalQueue (Option T))
    (hswept : pc.swept = true → (s.workers w).work.swept = true)
    (hparks : pc.parks = true → (s.workers w).work.parks = true) :
    ({ s.goto w pc with global := global } : Pool n O T).ahead +
        (s.workers w).work.ahead (s.workers w).stopped + taskAhead n * s.global.queue.length ≤
      s.ahead + pc.ahead (s.workers w).stopped + taskAhead n * global.queue.length := by
  have hset : ({ s.goto w pc with global := global } : Pool n O T).ahead + _ + _ = _ :=
    s.ahead_setWorker w ((s.workers w).goto pc) global rfl
  have hgoto := (s.workers w).ahead_goto s.coordinator.permission hswept hparks
  omega

/-- The same with a section of the coordinator that leaves the permission alone. -/
theorem ahead_goto_coordinator {n : Nat} {O T : Type} [Fintype O] (s : Pool n O T) (w : Fin n)
    {pc : Work n T} {coordinator : Coordinator (Fin n)}
    (h : coordinator.permission = s.coordinator.permission)
    (hswept : pc.swept = true → (s.workers w).work.swept = true)
    (hparks : pc.parks = true → (s.workers w).work.parks = true) :
    ({ s.goto w pc with coordinator := coordinator } : Pool n O T).ahead +
        (s.workers w).work.ahead (s.workers w).stopped ≤
      s.ahead + pc.ahead (s.workers w).stopped := by
  have hset : ({ s.goto w pc with coordinator := coordinator } : Pool n O T).ahead + _ + _ = _ :=
    s.ahead_setWorker w ((s.workers w).goto pc) s.global h
  have hgoto := (s.workers w).ahead_goto s.coordinator.permission hswept hparks
  omega

theorem ahead_goto {n : Nat} {O T : Type} [Fintype O] (s : Pool n O T) (w : Fin n) {pc : Work n T}
    (hswept : pc.swept = true → (s.workers w).work.swept = true)
    (hparks : pc.parks = true → (s.workers w).work.parks = true) :
    (s.goto w pc).ahead + (s.workers w).work.ahead (s.workers w).stopped ≤
      s.ahead + pc.ahead (s.workers w).stopped :=
  s.ahead_goto_coordinator w rfl hswept hparks

theorem ahead_notify {n : Nat} {O T : Type} [Fintype O] {s : Pool n O T} {v : Fin n}
    (hv : (s.workers v).work = .asleep) :
    (s.goto v .notified).ahead ≤ s.ahead + (roundAhead n + 1) := by
  have hgoto : (s.goto v .notified).ahead + _ ≤ s.ahead + _ :=
    s.ahead_goto v (unmet rfl) (unmet rfl)
  have hless : (Work.notified : Work n T).ahead (s.workers v).stopped ≤ roundAhead n + 1 := by
    simp only [Work.ahead, roundAhead]
    split <;> omega
  have hbefore : (s.workers v).work.ahead (s.workers v).stopped = 0 := by
    rw [hv]
    rfl
  omega

theorem ahead_notifyOne {n : Nat} {O T : Type} [Fintype O] {s t : Pool n O T}
    {woken : Option (Fin n)} (h : s.notifyOne woken = some t) :
    t.ahead ≤ s.ahead + (roundAhead n + 1) := by
  rcases notifyOne_cases h with ⟨v, hv, rfl⟩ | ⟨-, rfl⟩
  · exact ahead_notify hv
  · exact Nat.le_add_right _ _

/-- The permission to sleep changes for all workers at once. -/
theorem ahead_permission {n : Nat} {O T : Type} [Fintype O] (s : Pool n O T)
    (coordinator : Coordinator (Fin n)) :
    ({ s with coordinator := coordinator } : Pool n O T).ahead ≤ s.ahead + n * roundAhead n := by
  have hsum := tally_le_add (s := Finset.univ) (p := s.workers) (q := s.workers)
    fun w _ => Worker.ahead_permission s.coordinator.permission coordinator.permission (s.workers w)
  rw [Finset.card_univ, Fintype.card_fin] at hsum
  simp only [ahead]
  omega

/-- A batch from the global queue brings what its entries were worth there. -/
theorem ahead_grab {n : Nat} {O T : Type} [Fintype O] {s t : Pool n O T} {w : Fin n}
    {pc : Work n T} (hw : (s.workers w).work = .grab ∧ pc = .allowParking ∨
      (s.workers w).work = .grabAgain ∧ pc = .impudence) (h : s.grab w pc = some t) :
    t.ahead < s.ahead := by
  have htask : taskAhead n = roundAhead n + 3 := rfl
  obtain ⟨global, items, hgrab, rfl⟩ := grab_eq h
  have hqueue := (GlobalQueue.grab_queue hgrab).1
  have hswept : (s.workers w).work.swept = true := by
    rcases hw with ⟨hw, -⟩ | ⟨hw, -⟩ <;> rw [hw] <;> rfl
  have hmine : 10 + 3 * ((n + 1) / 2) ≤
      (s.workers w).work.ahead (s.workers w).stopped := by
    rcases hw with ⟨hw, -⟩ | ⟨hw, -⟩ <;> rw [hw] <;> simp only [Work.ahead] <;> omega
  rcases items with _ | ⟨first, _ | ⟨second, rest⟩⟩
  · have hparks : pc.parks = true → (s.workers w).work.parks = true := by
      rcases hw with ⟨-, rfl⟩ | ⟨hw, rfl⟩
      · exact unmet rfl
      · exact fun _ => by rw [hw]; rfl
    have hless : pc.ahead (s.workers w).stopped <
        (s.workers w).work.ahead (s.workers w).stopped := by
      rcases hw with ⟨hw, rfl⟩ | ⟨hw, rfl⟩ <;> rw [hw] <;> simp only [Work.ahead] <;> omega
    have hgoto := s.ahead_goto_global w global (fun _ => hswept) hparks
    rw [List.nil_append] at hqueue
    rw [hqueue] at hgoto
    show ({ s.goto w pc with global := global } : Pool n O T).ahead < s.ahead
    omega
  · have hlength : taskAhead n * s.global.queue.length =
        taskAhead n + taskAhead n * global.queue.length := by
      rw [hqueue, List.length_append, Nat.mul_add, List.length_singleton, Nat.mul_one]
    have hset : ({ s.goto w (Worker.picked .impudence first) with global := global } :
        Pool n O T).ahead + _ + _ = _ :=
      s.ahead_setWorker w ((s.workers w).goto (Worker.picked .impudence first)) global rfl
    have hkeeps : (s.workers w).Keeps ((s.workers w).goto (Worker.picked .impudence first)) :=
      (s.workers w).keeps_goto fun _ => hswept
    have hle := hkeeps.ahead_le s.coordinator.permission
    have hsame : ((s.workers w).goto (Worker.picked .impudence first)).localTasks =
      (s.workers w).localTasks := rfl
    rw [hsame] at hle
    show ({ s.goto w (Worker.picked .impudence first) with global := global } :
      Pool n O T).ahead < s.ahead
    cases first with
    | none =>
      have hnull : ((s.workers w).goto (Worker.picked .impudence none)).work.ahead
        (s.workers w).stopped = 8 + 3 * ((n + 1) / 2) := rfl
      have hless := hle.1
      omega
    | some task =>
      have hrun : ((s.workers w).goto (Worker.picked .impudence (some task))).work.ahead
        (s.workers w).stopped = roundAhead n + 2 := rfl
      have hless := hle.2 (unmet rfl)
      omega
  · have hlength : taskAhead n * s.global.queue.length =
        taskAhead n * (second :: rest).length + taskAhead n + taskAhead n * global.queue.length := by
      rw [hqueue, List.length_append, Nat.mul_add, List.length_cons, Nat.mul_add, Nat.mul_one]
    have hgoto : ({ s.goto w (.pushGrabbed first (second :: rest)) with global := global } :
        Pool n O T).ahead + _ + _ ≤ _ :=
      s.ahead_goto_global w global (fun _ => hswept) (unmet rfl)
    have hpushed : (Work.pushGrabbed first (second :: rest) : Work n T).ahead
        (s.workers w).stopped = 9 + 3 * ((n + 1) / 2) + taskAhead n * ((second :: rest).length + 1) :=
      rfl
    rw [Nat.mul_add, Nat.mul_one] at hpushed
    show ({ s.goto w (.pushGrabbed first (second :: rest)) with global := global } :
      Pool n O T).ahead < s.ahead
    omega

end Pool

namespace Worker

/-- What a thief leaves behind. -/
def robbed {n : Nat} {T : Type} (x : Worker n T) (k : Nat) : Worker n T :=
  { x with localTasks := x.localTasks.drop k }

theorem ahead_robbed {n : Nat} {T : Type} (permission : SleepingState) (x : Worker n T) (k : Nat) :
    (x.robbed k).ahead permission + taskAhead n * (x.localTasks.take k).length =
      x.ahead permission := by
  have hlength := congrArg (taskAhead n * List.length ·) (List.take_append_drop k x.localTasks)
  simp only [List.length_append, Nat.mul_add] at hlength
  have hslot : (x.robbed k).slotAhead = x.slotAhead := rfl
  have hpark : (x.robbed k).parkAhead permission = x.parkAhead permission := rfl
  simp only [ahead, hslot, hpark]
  simp only [robbed]
  omega

/-- A worker that may not park has the round before it that the permission costs. -/
theorem ahead_prohibited {n : Nat} {T : Type} {permission : SleepingState} {x : Worker n T}
    (hw : x.work = .tryPark) (hprohibited : permission ≠ .allowed) :
    (x.goto .pick).ahead permission < x.ahead permission := by
  have hkeeps : x.Keeps (x.goto .pick) := x.keeps_goto (unmet rfl)
  have hslot := hkeeps.slotAhead_le
  have hafter : (x.goto .pick).parkAhead permission = 0 := by
    simp [parkAhead, Worker.goto, Work.parks]
  have hmine : (x.goto .pick).work.ahead x.stopped <
      x.work.ahead x.stopped + x.parkAhead permission := by
    rw [hw]
    cases hstopped : x.stopped with
    | true =>
      show 4 < 5 + _
      omega
    | false =>
      have hbefore : x.parkAhead permission = roundAhead n := by
        simp [parkAhead, hprohibited, hstopped, hw, Work.parks]
      show roundAhead n < 5 + _
      omega
  simp only [ahead, hafter]
  simp only [Worker.goto] at hslot hmine ⊢
  omega

end Worker

namespace Pool

theorem ahead_globalStep {n : Nat} {O T : Type} [Fintype O] {s t : Pool n O T} {w : Fin n}
    (h : s.globalStep w = some t) : t.ahead < s.ahead := by
  have htask : taskAhead n = roundAhead n + 3 := rfl
  have goto {task : T} {e e' : Execute T} (hw : (s.workers w).work = .execute task e)
      (global : GlobalQueue (Option T))
      (hless : e'.ahead n + taskAhead n * global.queue.length <
        e.ahead n + taskAhead n * s.global.queue.length) :
      ({ s.goto w (.execute task e') with global := global } : Pool n O T).ahead < s.ahead := by
    have hgoto : ({ s.goto w (.execute task e') with global := global } : Pool n O T).ahead + _ + _ ≤
      _ := s.ahead_goto_global w global (unmet rfl) (unmet rfl)
    have hafter : (Work.execute task e' : Work n T).ahead (s.workers w).stopped =
      roundAhead n + 2 + e'.ahead n := rfl
    have hbefore : (s.workers w).work.ahead (s.workers w).stopped =
        roundAhead n + 2 + e.ahead n := by
      rw [hw]
      rfl
    omega
  cases globalStep_cases h with
  | grab hw h => exact ahead_grab hw h
  | @offloadClosed task buffer hw =>
    have hle := Nat.le_mul_of_pos_left buffer.length (by omega : 0 < taskAhead n)
    exact goto hw s.global (by simp only [Execute.ahead]; omega)
  | offload hw => exact goto hw s.global (by simp only [Execute.ahead]; omega)
  | offloadLocked hw =>
    refine goto hw _ ?_
    simp only [Execute.ahead, GlobalQueue.offload_queue, List.length_append, Nat.mul_add]
    omega
  | pushOneClosed hw | pushOne hw => exact goto hw s.global (by simp only [Execute.ahead]; omega)
  | pushOneLocked hw =>
    refine goto hw _ ?_
    simp only [Execute.ahead, GlobalQueue.pushOne_queue, List.length_append, Nat.mul_add,
      List.length_singleton, Nat.mul_one]
    omega

theorem ahead_notifyOne_goto {n : Nat} {O T : Type} [Fintype O] {s u : Pool n O T} {w : Fin n}
    {woken : Option (Fin n)} {pc : Work n T} (hw : (s.workers w).work ≠ .asleep)
    (hswept : pc.swept = false) (hparks : pc.parks = false) (hu : s.notifyOne woken = some u) :
    (u.goto w pc).ahead + (s.workers w).work.ahead (s.workers w).stopped ≤
      s.ahead + pc.ahead (s.workers w).stopped + (roundAhead n + 1) := by
  have hsame := (notifyOne_frame hu).2.2.2.2.2 w hw
  have hgoto : (u.goto w pc).ahead + _ ≤ _ :=
    u.ahead_goto w (by simp [hswept]) (by simp [hparks])
  have hwoken := ahead_notifyOne hu
  rw [hsame] at hgoto
  omega

/-- Whoever prohibits parking goes on with its task. -/
theorem ahead_prohibitParking {n : Nat} {O T : Type} [Fintype O] {s u : Pool n O T}
    {woken : Option (Fin n)} (hu : s.prohibitParking woken = some u) :
    u.ahead < s.ahead + prohibitAhead n := by
  have hpermission := s.ahead_permission s.coordinator.prohibitParking
  have hwoken := ahead_notifyOne (s := { s with coordinator := s.coordinator.prohibitParking }) hu
  simp only [prohibitAhead]
  omega

/-- `AllowParking` costs nobody a round: it fails only where the worker is stopped. -/
theorem ahead_allowParking {n : Nat} {O T : Type} [Fintype O] {s : Pool n O T} (hs : s.Standing)
    {w : Fin n} (hw : (s.workers w).work = .allowParking) :
    ({ s.goto w .grabAgain with coordinator := s.coordinator.allowParking } : Pool n O T).ahead <
      s.ahead := by
  have hpark (x : Worker n T) (hstopped : s.coordinator.permission = .permanentlyProhibited →
      x.stopped = true) : x.parkAhead s.coordinator.allowParking.permission = 0 := by
    unfold Worker.parkAhead Coordinator.allowParking
    split
    · simp
    · rename_i hpermanent
      simp [hstopped (by simpa using hpermanent)]
  have hstopped (v : Fin n) (h : s.coordinator.permission = .permanentlyProhibited) :
      (s.workers v).stopped = true :=
    hs.stopped v (PoolStop.passed_of_awoken (hs.permanent.mp h) v)
  have hless (x : Worker n T) (hx : s.coordinator.permission = .permanentlyProhibited →
      x.stopped = true) : x.ahead s.coordinator.allowParking.permission ≤
        x.ahead s.coordinator.permission := by
    have hzero := hpark x hx
    simp only [Worker.ahead]
    omega
  have hsum : tally Finset.univ (Worker.ahead s.coordinator.allowParking.permission) s.workers ≤
      tally Finset.univ (Worker.ahead s.coordinator.permission) s.workers :=
    Finset.sum_le_sum fun v _ => hless _ (hstopped v)
  have htally := tally_update (Worker.ahead s.coordinator.allowParking.permission) s.workers
    (Finset.mem_univ w) ((s.workers w).goto .grabAgain)
  have hafter := hpark ((s.workers w).goto .grabAgain) (hstopped w)
  have hbefore := hpark (s.workers w) (hstopped w)
  have hmoves : ((s.workers w).goto .grabAgain).ahead s.coordinator.allowParking.permission <
      (s.workers w).ahead s.coordinator.allowParking.permission := by
    have hkeeps : (s.workers w).Keeps ((s.workers w).goto .grabAgain) :=
      (s.workers w).keeps_goto fun _ => by rw [hw]; rfl
    have hslot := hkeeps.slotAhead_le
    simp only [Worker.ahead, hafter, hbefore]
    simp only [Worker.goto, hw, Work.ahead] at hslot ⊢
    omega
  simp only [ahead, Pool.goto, setWorker]
  omega

theorem ahead_coordinatorStep {n : Nat} {O T : Type} [Fintype O] {s t : Pool n O T}
    (hs : s.Standing) {w : Fin n} {c : Choice n T} (h : s.coordinatorStep w c = some t) :
    t.ahead < s.ahead := by
  have hround : roundAhead n = 18 + 4 * ((n + 1) / 2) := rfl
  have goto {pc : Work n T} (hswept : pc.swept = true → (s.workers w).work.swept = true)
      (hparks : pc.parks = true → (s.workers w).work.parks = true)
      (hless : pc.ahead (s.workers w).stopped < (s.workers w).work.ahead (s.workers w).stopped) :
      (s.goto w pc).ahead < s.ahead := by
    have hgoto := s.ahead_goto w hswept hparks
    omega
  cases coordinatorStep_cases h with
  | awakeOne hw hu =>
    rcases hw with ⟨hw, rfl⟩ | ⟨task, hw, rfl⟩
    · have hgoto : (_ : Pool n O T).ahead + _ ≤ _ :=
        ahead_notifyOne_goto (by rw [hw]; simp) (rfl : (Work.lifo : Work n T).swept = _) rfl hu
      rw [hw] at hgoto
      simp only [Work.ahead] at hgoto
      omega
    · have hgoto : (_ : Pool n O T).ahead + _ ≤ _ :=
        ahead_notifyOne_goto (by rw [hw]; simp) (rfl : (Work.run task : Work n T).swept = _) rfl hu
      rw [hw] at hgoto
      simp only [Work.ahead, Execute.ahead] at hgoto
      omega
  | allowParking hw => exact ahead_allowParking hs hw
  | gaveUp hw | itself hw | victim hw =>
    exact goto (fun _ => by rw [hw]; rfl) (fun _ => by rw [hw]; rfl)
      (by rw [hw]; simp only [Work.ahead]; omega)
  | park hw _ hunlink =>
    have hpermission := (hs.linked.unlink (by rw [hw]; rfl) hunlink).1
    have hgoto : ({ s.goto w .asleep with coordinator := _ } : Pool n O T).ahead + _ ≤ _ :=
      s.ahead_goto_coordinator w hpermission (unmet rfl) (unmet rfl)
    have hafter : (Work.asleep : Work n T).ahead (s.workers w).stopped = 0 := rfl
    have hbefore : (s.workers w).work.ahead (s.workers w).stopped = 5 := by rw [hw]; rfl
    omega
  | prohibited hw hprohibited =>
    have hset : (s.goto w .pick).ahead + _ + _ = _ :=
      s.ahead_setWorker w ((s.workers w).goto .pick) s.global rfl
    have hless := Worker.ahead_prohibited hw hprohibited
    omega
  | notified hw =>
    have hgoto : ({ s.goto w .pick with coordinator := _ } : Pool n O T).ahead + _ ≤ _ :=
      s.ahead_goto_coordinator w (rfl : (s.coordinator.acquireUnsafe w).permission = _)
        (unmet rfl) (unmet rfl)
    have hless : (Work.pick : Work n T).ahead (s.workers w).stopped <
        (s.workers w).work.ahead (s.workers w).stopped := by
      rw [hw]
      simp only [Work.ahead]
      split <;> omega
    omega
  | @prohibitParking task u hw hu =>
    have hsame := (notifyOne_frame hu).2.2.2.2.2 w (by rw [hw]; simp)
    have hprohibited := ahead_prohibitParking hu
    have hgoto : (u.goto w (.run task)).ahead + _ ≤ _ := u.ahead_goto w (unmet rfl) (unmet rfl)
    have hafter : (Work.run task : Work n T).ahead (u.workers w).stopped = roundAhead n + 2 := rfl
    have hbefore : (u.workers w).work.ahead (u.workers w).stopped =
        roundAhead n + 2 + prohibitAhead n := by
      rw [hsame, hw]
      rfl
    omega
  | release hw hrelease =>
    have hpermission := (hs.linked.release (by rw [hw]; rfl) hrelease).1
    have hgoto : ({ s.goto w (if (s.workers w).lifoSlot.isSome then .discardLifo else .drain) with
        coordinator := _ } : Pool n O T).ahead + _ ≤ _ :=
      s.ahead_goto_coordinator w hpermission (by split <;> exact unmet rfl)
        (by split <;> exact unmet rfl)
    have hless : (if (s.workers w).lifoSlot.isSome then Work.discardLifo else .drain :
        Work n T).ahead (s.workers w).stopped < (s.workers w).work.ahead (s.workers w).stopped := by
      rw [hw]
      split <;> simp [Work.ahead]
    omega

/-- What a thief takes is worth to it what it was worth to its victim. -/
theorem ahead_steal {n : Nat} {O T : Type} [Fintype O] {s : Pool n O T} {w victim : Fin n}
    {remaining limit : Nat} (hw : (s.workers w).work = .steal remaining victim limit) :
    ((s.setWorker victim { s.workers victim with
      localTasks := (s.workers victim).localTasks.drop limit }).goto w
        (match (s.workers victim).localTasks.take limit with
          | [] => .giveVictim remaining
          | [first] => Worker.picked .lifoCheck first
          | first :: rest => .pushStolen first rest)).ahead < s.ahead := by
  have htask : taskAhead n = roundAhead n + 3 := rfl
  let u := s.setWorker victim ((s.workers victim).robbed limit)
  have hrobbed : u.ahead + taskAhead n * ((s.workers victim).localTasks.take limit).length =
      s.ahead := by
    have hset : u.ahead + _ + _ = _ :=
      s.ahead_setWorker victim ((s.workers victim).robbed limit) s.global rfl
    have hrobbed := (s.workers victim).ahead_robbed s.coordinator.permission limit
    omega
  have hsame : (u.workers w).work = .steal remaining victim limit := by
    by_cases hv : w = victim
    · subst hv
      simpa [u, Worker.robbed] using hw
    · simp [u, setWorker_ne s _ hv, hw]
  have hswept : (u.workers w).work.swept = true := by rw [hsame]; rfl
  have hparks : (u.workers w).work.parks = true := by rw [hsame]; rfl
  have hbefore : (u.workers w).work.ahead (u.workers w).stopped = 8 + 3 * remaining := by
    rw [hsame]
    rfl
  rcases htake : (s.workers victim).localTasks.take limit with _ | ⟨first, _ | ⟨second, rest⟩⟩
  · have hgoto : (u.goto w (.giveVictim remaining)).ahead + _ ≤ _ :=
      u.ahead_goto w (fun _ => hswept) (fun _ => hparks)
    have hafter : (Work.giveVictim remaining : Work n T).ahead (u.workers w).stopped =
      7 + 3 * remaining := rfl
    show (u.goto w (.giveVictim remaining)).ahead < s.ahead
    omega
  · have hgoto : (u.goto w (Worker.picked .lifoCheck first)).ahead + _ ≤ _ :=
      u.ahead_goto w (fun _ => hswept) (fun _ => hparks)
    have hafter := Worker.picked_ahead (u.workers w).stopped (.lifoCheck : Work n T) first
    have hcheck : (Work.lifoCheck : Work n T).ahead (u.workers w).stopped = 6 := rfl
    rw [htake, List.length_singleton, Nat.mul_one] at hrobbed
    show (u.goto w (Worker.picked .lifoCheck first)).ahead < s.ahead
    omega
  · have hgoto : (u.goto w (.pushStolen first (second :: rest))).ahead + _ ≤ _ :=
      u.ahead_goto w (fun _ => hswept) (fun _ => hparks)
    have hafter : (Work.pushStolen first (second :: rest) : Work n T).ahead (u.workers w).stopped =
      7 + taskAhead n * ((second :: rest).length + 1) := rfl
    rw [htake, List.length_cons] at hrobbed
    show (u.goto w (.pushStolen first (second :: rest))).ahead < s.ahead
    omega

theorem ahead_stealStep {n : Nat} {O T : Type} [Fintype O] {s t : Pool n O T} {w : Fin n}
    {c : Choice n T} (h : s.stealStep w c = some t) : t.ahead < s.ahead := by
  cases stealStep_cases h with
  | @lowSize remaining victim hw =>
    have hgoto (limit : Nat) : (s.goto w (.steal remaining victim limit)).ahead <
        s.ahead := by
      have hgoto : (s.goto w (.steal remaining victim limit)).ahead + _ ≤ _ :=
        s.ahead_goto w (fun _ => by rw [hw]; rfl) fun _ => by rw [hw]; rfl
      have hafter : (Work.steal remaining victim limit : Work n T).ahead (s.workers w).stopped =
        8 + 3 * remaining := rfl
      have hbefore : (s.workers w).work.ahead (s.workers w).stopped = 9 + 3 * remaining := by
        rw [hw]
        rfl
      omega
    exact hgoto _
  | steal hw => exact ahead_steal hw
  | @grab task overflow hw =>
    let buffer := (s.workers w).offloaded overflow c.uninit
    have hbuffer : taskAhead n * buffer.length ≤ taskAhead n * 128 := by
      have hlength := (s.workers w).offloaded_length overflow c.uninit
      simp only [kLocalQueueCapacity] at hlength
      exact Nat.mul_le_mul_left _ (show buffer.length ≤ 128 by simp only [buffer]; omega)
    let y : Worker n T := { s.workers w with
      localTasks := (s.workers w).localTasks.drop (kLocalQueueCapacity / 2)
      work := .execute task (.offload buffer) }
    have hset : (s.setWorker w y).ahead + _ + _ = _ := s.ahead_setWorker w y s.global rfl
    have hkeeps : (s.workers w).Keeps y := ⟨rfl, rfl, rfl, rfl, unmet rfl⟩
    have hle := (hkeeps.ahead_le s.coordinator.permission).2 (unmet rfl)
    have hring : taskAhead n * y.localTasks.length ≤
        taskAhead n * (s.workers w).localTasks.length :=
      Nat.mul_le_mul_left _ (by simp [y])
    have hafter : y.work.ahead (s.workers w).stopped = roundAhead n + 2 +
      (roundAhead n + 4 + taskAhead n * buffer.length) := rfl
    have hbefore : (s.workers w).work.ahead (s.workers w).stopped = roundAhead n + 2 +
        (roundAhead n + 5 + taskAhead n * 128) := by
      rw [hw]
      rfl
    show (s.setWorker w y).ahead < s.ahead
    omega

theorem ahead_workerStep {n : Nat} {O T : Type} [Fintype O] {s t : Pool n O T} (hs : s.Standing)
    {w : Fin n} {c : Choice n T} (h : s.workerStep w c = some t) : t.ahead < s.ahead := by
  rcases workerStep_cases h with ⟨x, hx, rfl⟩ | hglobal | hcoordinator | hsteal
  · have hset : (s.setWorker w x).ahead + _ + _ = _ := s.ahead_setWorker w x s.global rfl
    have hless := Worker.ahead_localStep s.coordinator.permission hx
    omega
  · exact ahead_globalStep hglobal
  · exact ahead_coordinatorStep hs hcoordinator
  · exact ahead_stealStep hsteal

theorem ahead_call {n : Nat} {O T : Type} [Fintype O] [DecidableEq O] (s : Pool n O T) (o : O)
    (pc : OutsideCall T) (global : GlobalQueue (Option T)) :
    ({ s.call o pc with global := global } : Pool n O T).ahead + (s.outside o).ahead n +
        taskAhead n * s.global.queue.length =
      s.ahead + pc.ahead n + taskAhead n * global.queue.length := by
  have htally := tally_update (OutsideCall.ahead n) s.outside (Finset.mem_univ o) pc
  simp only [ahead, call]
  omega

theorem ahead_outsideStep {n : Nat} {O T : Type} [Fintype O] [DecidableEq O] {s t : Pool n O T}
    {o : O} {woken : Option (Fin n)} (h : s.outsideStep o woken = some t) : t.ahead < s.ahead := by
  have goto {pc : OutsideCall T} (hless : pc.ahead n < (s.outside o).ahead n) :
      (s.call o pc).ahead < s.ahead := by
    have hcall : (s.call o pc).ahead + _ + _ = _ := s.ahead_call o pc s.global
    omega
  unfold outsideStep at h
  cases ho : s.outside o with
  | idle => simp [ho] at h
  | pushOne task =>
    simp only [ho, Option.some.injEq] at h
    subst h
    refine goto ?_
    rw [ho]
    split <;> simp only [OutsideCall.ahead] <;> omega
  | pushOneLocked task =>
    simp only [ho, Option.some.injEq] at h
    subst h
    have hcall : ({ s.call o .prohibitParking with global := s.global.pushOne (some task) } :
        Pool n O T).ahead + _ + _ = _ := s.ahead_call o .prohibitParking _
    have hafter : (OutsideCall.prohibitParking : OutsideCall T).ahead n = prohibitAhead n := rfl
    have hbefore : (s.outside o).ahead n = prohibitAhead n + 1 + taskAhead n := by rw [ho]; rfl
    have hqueue : taskAhead n * (s.global.pushOne (some task)).queue.length =
        taskAhead n * s.global.queue.length + taskAhead n := by
      rw [GlobalQueue.pushOne_queue, List.length_append, Nat.mul_add, List.length_singleton,
        Nat.mul_one]
    show ({ s.call o .prohibitParking with global := s.global.pushOne (some task) } :
      Pool n O T).ahead < s.ahead
    omega
  | discard task =>
    simp only [ho, Option.some.injEq] at h
    subst h
    refine goto ?_
    rw [ho]
    simp only [OutsideCall.ahead]
    omega
  | prohibitParking =>
    simp only [ho] at h
    obtain ⟨u, hu, rfl⟩ := Option.map_eq_some_iff.mp h
    have hprohibited := ahead_prohibitParking hu
    have hsame : u.outside = s.outside := (notifyOne_frame hu).1
    have hcall : (u.call o .idle).ahead + _ + _ = _ := u.ahead_call o .idle u.global
    have hafter : (OutsideCall.idle : OutsideCall T).ahead n = 0 := rfl
    have hbefore : (u.outside o).ahead n = prohibitAhead n := by rw [hsame, ho]; rfl
    omega

/-- `AwakeEveryoneForever` sends every worker on a round. -/
theorem ahead_awakeEveryoneForever {n : Nat} {O T : Type} [Fintype O] {s : Pool n O T}
    (hstop : s.stop = .awakeEveryoneForever) :
    ({ s.notifyAll with
      coordinator := s.coordinator.awakeEveryoneForever, stop := .join 0 } : Pool n O T).ahead <
        s.ahead := by
  have hround (w : Fin n) : (s.notifyAll.workers w).ahead
      s.coordinator.awakeEveryoneForever.permission ≤
        (s.workers w).ahead s.coordinator.permission + (roundAhead n + 1) := by
    rcases s.notifyAll_worker w with ⟨hw, heq⟩ | ⟨-, heq⟩
    · have hgoto : ((s.workers w).goto .notified).ahead s.coordinator.permission + _ ≤ _ :=
        (s.workers w).ahead_goto s.coordinator.permission (unmet rfl) (unmet rfl)
      have hafter : (Work.notified : Work n T).ahead (s.workers w).stopped ≤ roundAhead n + 1 := by
        simp only [Work.ahead, roundAhead]
        split <;> omega
      have hbefore : (s.workers w).work.ahead (s.workers w).stopped = 0 := by rw [hw]; rfl
      have hsame : ((s.workers w).goto .notified).ahead
          s.coordinator.awakeEveryoneForever.permission =
            ((s.workers w).goto .notified).ahead s.coordinator.permission := by
        simp [Worker.ahead, Worker.parkAhead, Worker.goto, Work.parks]
      rw [heq, hsame]
      omega
    · have hpermission := (s.workers w).ahead_permission s.coordinator.permission
        s.coordinator.awakeEveryoneForever.permission
      rw [heq]
      omega
  have hsum := tally_le_add (s := Finset.univ) (p := s.workers) (q := s.notifyAll.workers)
    fun w _ => hround w
  rw [Finset.card_univ, Fintype.card_fin] at hsum
  have hafter : (PoolStop.join 0 : PoolStop T).ahead n = n + 1 := rfl
  have hbefore : s.stop.ahead n = n * (roundAhead n + 1) + n + 2 := by rw [hstop]; rfl
  simp only [ahead, hafter, hbefore]
  simp only [notifyAll] at hsum ⊢
  omega

theorem ahead_stopping {n : Nat} {O T : Type} [Fintype O] (s : Pool n O T) (stop : PoolStop T) :
    ({ s with stop := stop } : Pool n O T).ahead + s.stop.ahead n = s.ahead + stop.ahead n := by
  simp only [ahead]
  omega

theorem ahead_stopWorker {n : Nat} {O T : Type} [Fintype O] {s : Pool n O T} {w : Fin n}
    (hstop : s.stop = .stopWorkers w) :
    ({ s.setWorker w { s.workers w with stopped := true } with stop := .stopWorkers (w + 1) } :
      Pool n O T).ahead < s.ahead := by
  let y : Worker n T := { s.workers w with stopped := true }
  let u := s.setWorker w y
  have hset : u.ahead + _ + _ = _ := s.ahead_setWorker w y s.global rfl
  have hless : y.ahead _ ≤ _ := (s.workers w).ahead_stopped s.coordinator.permission
  have hmove := u.ahead_stopping (.stopWorkers (w + 1))
  have hafter : (PoolStop.stopWorkers (w + 1) : PoolStop T).ahead n =
    awakeAhead n + 3 + (n - (w + 1)) := rfl
  have hbefore : u.stop.ahead n = awakeAhead n + 3 + (n - w) := by
    show s.stop.ahead n = _
    rw [hstop]
    rfl
  have hw := w.isLt
  show ({ u with stop := .stopWorkers (w + 1) } : Pool n O T).ahead < s.ahead
  omega

theorem ahead_stopStep {n : Nat} {O T : Type} [Fintype O] {s t : Pool n O T}
    (h : s.stopStep = some t) : t.ahead < s.ahead := by
  have goto {stop : PoolStop T} {global : GlobalQueue (Option T)}
      (hless : stop.ahead n + taskAhead n * global.queue.length <
        s.stop.ahead n + taskAhead n * s.global.queue.length) :
      ({ s with stop := stop, global := global } : Pool n O T).ahead < s.ahead := by
    simp only [ahead]
    omega
  unfold stopStep at h
  cases hstop : s.stop with
  | notCalled | returned => simp [hstop] at h
  | stopWorkers i =>
    simp only [hstop] at h
    split at h
    · rename_i hi
      simp only [Option.some.injEq] at h
      subst h
      exact ahead_stopWorker (w := ⟨i, hi⟩) hstop
    · simp only [Option.some.injEq] at h
      subst h
      exact goto (by rw [hstop]; simp only [PoolStop.ahead]; omega)
  | storeClosed =>
    simp only [hstop, Option.some.injEq] at h
    subst h
    exact goto (by rw [hstop]; simp only [PoolStop.ahead]; omega)
  | drain =>
    have htask : taskAhead n = roundAhead n + 3 := rfl
    simp only [hstop, GlobalQueue.drain] at h
    split at h
    · simp only [Option.some.injEq] at h
      subst h
      exact goto (by rw [hstop]; simp only [PoolStop.ahead]; omega)
    · rename_i hitems hdrain
      obtain ⟨rfl, rfl⟩ := Prod.mk.inj hdrain
      simp only [Option.some.injEq] at h
      subst h
      have hsome := List.length_pos_of_ne_nil hitems
      have hqueue : taskAhead n * s.global.queue.length = taskAhead n *
          (s.global.queue.take 256).length + taskAhead n * (s.global.queue.drop 256).length := by
        rw [← Nat.mul_add, ← List.length_append, List.take_append_drop]
      have hworth : (s.global.queue.take 256).length + 2 ≤
          taskAhead n * (s.global.queue.take 256).length := by
        have hle := Nat.mul_le_mul_right (s.global.queue.take 256).length
          (by simp only [htask, roundAhead]; omega : 3 ≤ taskAhead n)
        omega
      refine goto ?_
      rw [hstop]
      simp only [PoolStop.ahead]
      omega
  | discard rest =>
    cases rest with
    | nil | cons item rest =>
      simp only [hstop, Option.some.injEq] at h
      subst h
      refine goto ?_
      simp only [hstop, PoolStop.ahead, List.length_cons, List.length_nil]
      omega
  | awakeEveryoneForever =>
    simp only [hstop, Option.some.injEq] at h
    subst h
    exact ahead_awakeEveryoneForever hstop
  | join i =>
    simp only [hstop] at h
    split at h
    · split at h
      · simp only [Option.some.injEq] at h
        subst h
        exact goto (by rw [hstop]; simp only [PoolStop.ahead]; omega)
      · cases h
    · simp only [Option.some.injEq] at h
      subst h
      exact goto (by rw [hstop]; simp only [PoolStop.ahead]; omega)

theorem ahead_waitIdleStep {n : Nat} {O T : Type} [Fintype O] {s t : Pool n O T}
    (h : s.waitIdleStep = some t) : t.ahead < s.ahead := by
  unfold waitIdleStep at h
  cases hwait : s.waitIdle with
  | notCalled | returned => simp [hwait] at h
  | globalTasks | coordinator =>
    simp only [hwait, Option.ite_none_right_eq_some, Option.some.injEq] at h
    obtain ⟨-, rfl⟩ := h
    simp only [ahead, hwait, WaitIdle.ahead]
    omega

theorem ahead_runs {n : Nat} {O T : Type} [Fintype O] {s : Pool n O T} {w : Fin n} {task : T}
    {pc : Work n T} (hw : (s.workers w).work = .run task)
    (hpc : pc = .pick ∨ pc = .discardRun task) : (s.goto w pc).ahead < s.ahead := by
  have hswept : pc.swept = false := by rcases hpc with rfl | rfl <;> rfl
  have hparks : pc.parks = false := by rcases hpc with rfl | rfl <;> rfl
  have hgoto : (s.goto w pc).ahead + _ ≤ _ :=
    s.ahead_goto w (by simp [hswept]) (by simp [hparks])
  have hafter : pc.ahead (s.workers w).stopped ≤ roundAhead n + 1 := by
    rcases hpc with rfl | rfl
    · simp only [Work.ahead, roundAhead]
      split <;> omega
    · exact Nat.le_refl _
  have hbefore : (s.workers w).work.ahead (s.workers w).stopped = roundAhead n + 2 := by
    rw [hw]
    rfl
  omega

/-- Whatever the pool does by itself brings it nearer to rest. -/
theorem ahead_step {n : Nat} {O T : Type} [Fintype O] [DecidableEq O] {s t : Pool n O T}
    (hs : s.Standing) {l : PoolLabel n O T} (hl : l.offered = false) (h : s.step l = some t) :
    t.ahead < s.ahead := by
  cases l with
  | worker w c => exact ahead_workerStep hs h
  | return_ w =>
    cases hw : (s.workers w).work <;> simp only [step, hw, reduceCtorEq, Option.some.injEq] at h
    subst h
    exact ahead_runs hw (.inl rfl)
  | throw w =>
    cases hw : (s.workers w).work <;> simp only [step, hw, reduceCtorEq, Option.some.injEq] at h
    subst h
    exact ahead_runs hw (.inr rfl)
  | outside o woken => exact ahead_outsideStep h
  | waitIdle => exact ahead_waitIdleStep h
  | stop => exact ahead_stopStep h
  | execute w task hint | submit o task | spurious w | callWaitIdle | callStop => cases hl

end Pool

/-- Without a new call, and with nobody woken for no reason, a run is no longer than
`ahead`, whoever goes first and whatever the twister says: no worker can go round
`PickNextTask` forever, and `Stop` and `WaitIdle` cannot spin. -/
theorem pool_halts {n : Nat} {O T : Type} [Fintype O] [DecidableEq O] {s t : Pool n O T}
    (h : (pool n O T).Reachable s) {ls : List (PoolLabel n O T)}
    (hls : ∀ l ∈ ls, l.offered = false) (hrun : (pool n O T).exec s ls = some t) :
    ls.length + t.ahead ≤ s.ahead := by
  refine h.exec_length_le_of ?_ hls hrun
  intro s l t hs hl hstep
  exact Pool.ahead_step (pool_standing hs) hl hstep

/-- One task is submitted; the worker runs it, finds nothing more and goes to sleep. -/
theorem pool_halts_asleep : ∃ s t : Pool 1 (Fin 1) Nat,
    (pool 1 (Fin 1) Nat).Reachable s ∧ s.global.queue = [some 7] ∧
      (t.workers 0).asleep = true ∧ 17 + t.ahead ≤ s.ahead := by
  have h : (pool 1 (Fin 1) Nat).Reachable _ :=
    Machine.reachable_of_exec [.submit 0 7, .outside 0 none, .outside 0 none] rfl
  have hls : ∀ l ∈ (.outside 0 none :: List.replicate 4 (.worker 0 ⟨none, 0, fun _ => none⟩) ++
      .return_ 0 :: List.replicate 11 (.worker 0 ⟨none, 0, fun _ => none⟩) :
        List (PoolLabel 1 (Fin 1) Nat)), l.offered = false := by
    simp [PoolLabel.offered]
  exact ⟨_, _, h, rfl, rfl, pool_halts h hls rfl⟩

end ConcurrentProgramming.Fast

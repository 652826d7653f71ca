import ConcurrentProgramming.Interleaving.Machine
import ConcurrentProgramming.Interleaving.Tally

/-!
The ticket lock with `TryLock`. Every load, `fetch_add` and compare-exchange is a
step; a ticket is a 64-bit word.
-/

set_option autoImplicit false

namespace ConcurrentProgramming.Sync
open Interleaving

/-- `TryLock` returns true into `holding` and false into `idle`. -/
inductive TicketPc where
  | idle
  | fetchAdd
  | wait (ticket : Nat)
  | loadOwner
  | loadNext (lastSeenOwner : Nat)
  | compareExchange (lastSeenOwner desired : Nat)
  | holding (ticket : Nat)
  | unlock (ticket : Nat)
  deriving DecidableEq, Repr

/-- `issued` counts the tickets taken, `granted` records them in the order in which
they got the lock. -/
structure TicketLock (T : Type) where
  nextFreeTicket : Nat
  ownerTicket : Nat
  pc : T → TicketPc
  issued : Nat
  granted : List Nat

inductive TicketLabel (T : Type) where
  | lock (t : T)
  | tryLock (t : T)
  | unlock (t : T)
  | step (t : T)
  deriving DecidableEq, Repr

namespace TicketLock

def goto {T : Type} [DecidableEq T] (s : TicketLock T) (t : T) (pc : TicketPc) : TicketLock T :=
  { s with pc := Function.update s.pc t pc }

def threadStep {T : Type} [DecidableEq T] (s : TicketLock T) (t : T) : Option (TicketLock T) :=
  match s.pc t with
  | .idle | .holding _ => none
  | .fetchAdd =>
    some { s.goto t (.wait s.nextFreeTicket) with
      nextFreeTicket := (s.nextFreeTicket + 1) % 2 ^ 64, issued := s.issued + 1 }
  | .wait ticket =>
    if ticket ≠ s.ownerTicket then some s
    else some { s.goto t (.holding ticket) with granted := s.granted ++ [ticket] }
  | .loadOwner => some (s.goto t (.loadNext s.ownerTicket))
  | .loadNext lastSeenOwner =>
    some (s.goto t (.compareExchange lastSeenOwner ((s.nextFreeTicket + 1) % 2 ^ 64)))
  | .compareExchange lastSeenOwner desired =>
    if s.nextFreeTicket = lastSeenOwner then
      some { s.goto t (.holding lastSeenOwner) with
        nextFreeTicket := desired
        issued := s.issued + 1
        granted := s.granted ++ [lastSeenOwner] }
    else some (s.goto t .idle)
  | .unlock _ => some { s.goto t .idle with ownerTicket := (s.ownerTicket + 1) % 2 ^ 64 }

def step {T : Type} [DecidableEq T] (s : TicketLock T) : TicketLabel T → Option (TicketLock T)
  | .lock t =>
    match s.pc t with
    | .idle => some (s.goto t .fetchAdd)
    | _ => none
  | .tryLock t =>
    match s.pc t with
    | .idle => some (s.goto t .loadOwner)
    | _ => none
  | .unlock t =>
    match s.pc t with
    | .holding ticket => some (s.goto t (.unlock ticket))
    | _ => none
  | .step t => s.threadStep t

end TicketLock

def ticketLock (T : Type) [DecidableEq T] : Machine (TicketLock T) (TicketLabel T) where
  init := ⟨0, 0, fun _ => .idle, 0, []⟩
  step := TicketLock.step

namespace TicketPc

/-- The ticket that a thread waits with or holds the lock with. -/
def ticket : TicketPc → Option Nat
  | .wait ticket | .holding ticket | .unlock ticket => some ticket
  | _ => none

def claims (pc : TicketPc) : Bool := pc.ticket.isSome

def holds : TicketPc → Bool
  | .holding _ | .unlock _ => true
  | _ => false

/-- Inside `Lock`. -/
def locking : TicketPc → Bool
  | .fetchAdd | .wait _ => true
  | _ => false

/-- Inside `TryLock`. -/
def trying : TicketPc → Bool
  | .loadOwner | .loadNext _ | .compareExchange _ _ => true
  | _ => false

/-- What a thread inside `TryLock` has read is not ahead of the counters. -/
def Read (owner issued : Nat) : TicketPc → Prop
  | .loadNext lastSeenOwner => lastSeenOwner ≤ owner
  | .compareExchange lastSeenOwner desired => lastSeenOwner ≤ owner ∧
      ∃ next, lastSeenOwner ≤ next ∧ next ≤ issued ∧ desired = (next + 1) % 2 ^ 64
  | _ => True

theorem Read.mono {owner owner' issued issued' : Nat} {pc : TicketPc} (h : pc.Read owner issued)
    (howner : owner ≤ owner') (hissued : issued ≤ issued') : pc.Read owner' issued' := by
  cases pc with
  | loadNext seen => exact Nat.le_trans h howner
  | compareExchange seen desired =>
    obtain ⟨hseen, next, hnext, hle, hdesired⟩ := h
    exact ⟨Nat.le_trans hseen howner, next, hnext, Nat.le_trans hle hissued, hdesired⟩
  | _ => trivial

def claimCount (pc : TicketPc) : Nat := if pc.claims then 1 else 0

def holdCount (pc : TicketPc) : Nat := if pc.holds then 1 else 0

end TicketPc

namespace TicketLock

/-- As long as no counter has wrapped around. -/
structure Inv {T : Type} [Fintype T] (s : TicketLock T) : Prop where
  next : s.nextFreeTicket = s.issued
  outstanding : s.issued = s.ownerTicket + tally Finset.univ TicketPc.claimCount s.pc
  ticket : ∀ t k, (s.pc t).ticket = some k → s.ownerTicket ≤ k ∧ k < s.issued
  apart : ∀ t u k, (s.pc t).ticket = some k → (s.pc u).ticket = some k → t = u
  holder : ∀ t, (s.pc t).holds = true → (s.pc t).ticket = some s.ownerTicket
  read : ∀ t, (s.pc t).Read s.ownerTicket s.issued
  granted : s.granted =
    List.range (s.ownerTicket + tally Finset.univ TicketPc.holdCount s.pc)

/-- A step that takes no ticket, gives none back and does not get the lock. -/
theorem Inv.goto {T : Type} [Fintype T] [DecidableEq T] {s : TicketLock T} (hs : s.Inv) {t : T}
    {pc : TicketPc} (hticket : pc.ticket = (s.pc t).ticket) (hholds : pc.holds = (s.pc t).holds)
    (hread : pc.Read s.ownerTicket s.issued) : (s.goto t pc).Inv := by
  have hclaims : pc.claimCount = (s.pc t).claimCount := by
    unfold TicketPc.claimCount TicketPc.claims
    rw [hticket]
  have hcount : pc.holdCount = (s.pc t).holdCount := by
    unfold TicketPc.holdCount
    rw [hholds]
  have same (u : T) : ((s.goto t pc).pc u).ticket = (s.pc u).ticket := by
    by_cases hu : u = t
    · simp [TicketLock.goto, hu, hticket]
    · simp [TicketLock.goto, hu]
  have hold (u : T) : ((s.goto t pc).pc u).holds = (s.pc u).holds := by
    by_cases hu : u = t
    · simp [TicketLock.goto, hu, hholds]
    · simp [TicketLock.goto, hu]
  refine ⟨hs.next, ?_, fun u k hu => hs.ticket u k (same u ▸ hu),
    fun u v k hu hv => hs.apart u v k (same u ▸ hu) (same v ▸ hv),
    fun u hu => (same u).trans (hs.holder u (hold u ▸ hu)), fun u => ?_, ?_⟩
  · have htally := tally_update_of_eq (s := Finset.univ) TicketPc.claimCount s.pc hclaims
    simpa [TicketLock.goto, htally] using hs.outstanding
  · by_cases hu : u = t
    · simpa [TicketLock.goto, hu] using hread
    · simpa [TicketLock.goto, hu] using hs.read u
  · have htally := tally_update_of_eq (s := Finset.univ) TicketPc.holdCount s.pc hcount
    simpa [TicketLock.goto, htally] using hs.granted

/-- Nobody holds the lock while somebody waits with the ticket of the owner, or
while no ticket is out. -/
theorem Inv.free {T : Type} [Fintype T] {s : TicketLock T} (hs : s.Inv)
    (h : s.ownerTicket = s.issued ∨
      ∃ t, (s.pc t).ticket = some s.ownerTicket ∧ (s.pc t).holds = false) :
    ∀ u, (s.pc u).holds = false := by
  intro u
  cases hu : (s.pc u).holds with
  | false => rfl
  | true =>
    have howner := hs.holder u hu
    rcases h with h | ⟨t, ht, hholds⟩
    · have := (hs.ticket u _ howner).2
      omega
    · rw [hs.apart t u _ ht howner, hu] at hholds
      cases hholds

theorem holdCount_eq_zero {T : Type} [Fintype T] {s : TicketLock T}
    (h : ∀ u, (s.pc u).holds = false) : tally Finset.univ TicketPc.holdCount s.pc = 0 :=
  tally_eq_zero.mpr fun u _ => by simp [TicketPc.holdCount, h u]

/-- A thread takes the next ticket. -/
theorem Inv.take {T : Type} [Fintype T] [DecidableEq T] {s : TicketLock T} (hs : s.Inv) {t : T}
    {pc : TicketPc} {granted : List Nat} (ht : (s.pc t).ticket = none)
    (hpc : pc.ticket = some s.issued) (hholds : pc.holds = true → s.ownerTicket = s.issued)
    (hread : pc.Read s.ownerTicket (s.issued + 1))
    (hgranted : granted = s.granted ++ if pc.holds then [s.issued] else []) :
    ({ s.goto t pc with
      nextFreeTicket := s.issued + 1, issued := s.issued + 1, granted := granted } :
      TicketLock T).Inv := by
  have hfree : (s.pc t).holds = false := by
    cases hp : s.pc t <;> simp_all [TicketPc.ticket, TicketPc.holds]
  have old (u : T) (hu : u ≠ t) : Function.update s.pc t pc u = s.pc u :=
    Function.update_of_ne hu ..
  refine ⟨rfl, ?_, fun u k hu => ?_, fun u v k hu hv => ?_, fun u hu => ?_, fun u => ?_, ?_⟩
  · have htally := tally_update TicketPc.claimCount s.pc (Finset.mem_univ t) pc
    have hnone : (s.pc t).claimCount = 0 := by simp [TicketPc.claimCount, TicketPc.claims, ht]
    have hone : pc.claimCount = 1 := by simp [TicketPc.claimCount, TicketPc.claims, hpc]
    have houtstanding := hs.outstanding
    simp only [TicketLock.goto]
    omega
  · by_cases he : u = t
    · subst he
      simp only [TicketLock.goto, Function.update_self, hpc, Option.some.injEq] at hu
      subst hu
      have := hs.outstanding
      exact ⟨by show s.ownerTicket ≤ _; omega, Nat.lt_succ_self _⟩
    · simp only [TicketLock.goto, old u he] at hu
      obtain ⟨hle, hlt⟩ := hs.ticket u k hu
      exact ⟨hle, Nat.lt_succ_of_lt hlt⟩
  · have fresh (w : T) (hw : w ≠ t) (hk : ((s.goto t pc).pc w).ticket = some s.issued) :
        False := by
      simp only [TicketLock.goto, old w hw] at hk
      have := (hs.ticket w _ hk).2
      omega
    by_cases heu : u = t <;> by_cases hev : v = t
    · rw [heu, hev]
    · subst heu
      simp only [TicketLock.goto, Function.update_self, hpc, Option.some.injEq] at hu
      exact (fresh v hev (hu ▸ hv)).elim
    · subst hev
      simp only [TicketLock.goto, Function.update_self, hpc, Option.some.injEq] at hv
      exact (fresh u heu (hv ▸ hu)).elim
    · simp only [TicketLock.goto, old u heu, old v hev] at hu hv
      exact hs.apart u v k hu hv
  · by_cases he : u = t
    · subst he
      simp only [TicketLock.goto, Function.update_self] at hu ⊢
      rw [hpc, hholds hu]
    · simp only [TicketLock.goto, old u he] at hu ⊢
      exact hs.holder u hu
  · by_cases he : u = t
    · simpa [TicketLock.goto, he] using hread
    · simp only [TicketLock.goto, old u he]
      exact (hs.read u).mono (Nat.le_refl _) (Nat.le_succ _)
  · have htally := tally_update TicketPc.holdCount s.pc (Finset.mem_univ t) pc
    simp only [hgranted, hs.granted, TicketLock.goto]
    have hzero : (s.pc t).holdCount = 0 := by simp [TicketPc.holdCount, hfree]
    cases hp : pc.holds with
    | false =>
      have hnone : pc.holdCount = 0 := by simp [TicketPc.holdCount, hp]
      simp only [Bool.false_eq_true, if_false, List.append_nil]
      congr 1
      omega
    | true =>
      have hone : pc.holdCount = 1 := by simp [TicketPc.holdCount, hp]
      have hnobody := holdCount_eq_zero (hs.free (.inl (hholds hp)))
      have htotal : tally Finset.univ TicketPc.holdCount (Function.update s.pc t pc) = 1 := by
        omega
      simp only [if_true, hnobody, htotal, hholds hp, Nat.add_zero, List.range_succ]

/-- The owner's ticket is the one a thread waits with. -/
theorem Inv.acquire {T : Type} [Fintype T] [DecidableEq T] {s : TicketLock T} (hs : s.Inv) {t : T}
    (ht : s.pc t = .wait s.ownerTicket) :
    ({ s.goto t (.holding s.ownerTicket) with granted := s.granted ++ [s.ownerTicket] } :
      TicketLock T).Inv := by
  have hnobody := hs.free (.inr ⟨t, by rw [ht]; rfl, by rw [ht]; rfl⟩)
  have same (u : T) :
      (Function.update s.pc t (.holding s.ownerTicket) u).ticket = (s.pc u).ticket := by
    by_cases hu : u = t
    · subst hu
      rw [Function.update_self, ht]
      rfl
    · rw [Function.update_of_ne hu]
  refine ⟨hs.next, ?_, fun u k hu => hs.ticket u k (same u ▸ hu),
    fun u v k hu hv => hs.apart u v k (same u ▸ hu) (same v ▸ hv), fun u hu => ?_, fun u => ?_, ?_⟩
  · have htally := tally_update_of_eq (s := Finset.univ) TicketPc.claimCount s.pc (i := t)
      (a := .holding s.ownerTicket) (by rw [ht]; rfl)
    simpa [TicketLock.goto, htally] using hs.outstanding
  · by_cases he : u = t
    · subst he
      simp [TicketLock.goto, TicketPc.ticket]
    · simp only [TicketLock.goto, Function.update_of_ne he, hnobody u] at hu
      cases hu
  · by_cases he : u = t
    · simp [TicketLock.goto, he, TicketPc.Read]
    · simpa [TicketLock.goto, he] using hs.read u
  · have htally := tally_update TicketPc.holdCount s.pc (Finset.mem_univ t)
      (.holding s.ownerTicket)
    have hzero : (s.pc t).holdCount = 0 := by rw [ht]; rfl
    have hone : (TicketPc.holding s.ownerTicket).holdCount = 1 := rfl
    have hnone := holdCount_eq_zero hnobody
    have htotal : tally Finset.univ TicketPc.holdCount
        (Function.update s.pc t (.holding s.ownerTicket)) = 1 := by omega
    simp only [TicketLock.goto, hs.granted, hnone, htotal, Nat.add_zero, List.range_succ]

/-- The holder gives its ticket back. -/
theorem Inv.unlock {T : Type} [Fintype T] [DecidableEq T] {s : TicketLock T} (hs : s.Inv) {t : T}
    {k : Nat} (ht : s.pc t = .unlock k) :
    ({ s.goto t .idle with ownerTicket := s.ownerTicket + 1 } : TicketLock T).Inv := by
  have howner : (s.pc t).ticket = some s.ownerTicket := hs.holder t (by rw [ht]; rfl)
  have hother (u : T) (hu : u ≠ t) : (s.pc u).holds = false := by
    cases hh : (s.pc u).holds with
    | false => rfl
    | true => exact (hu (hs.apart u t _ (hs.holder u hh) howner)).elim
  refine ⟨hs.next, ?_, fun u m hu => ?_, fun u v m hu hv => ?_, fun u hu => ?_, fun u => ?_, ?_⟩
  · have htally := tally_update TicketPc.claimCount s.pc (Finset.mem_univ t) .idle
    have hone : (s.pc t).claimCount = 1 := by rw [ht]; rfl
    have hnone : TicketPc.idle.claimCount = 0 := rfl
    have houtstanding := hs.outstanding
    simp only [TicketLock.goto]
    omega
  · by_cases he : u = t
    · simp [TicketLock.goto, he, TicketPc.ticket] at hu
    · simp only [TicketLock.goto, Function.update_of_ne he] at hu ⊢
      obtain ⟨hle, hlt⟩ := hs.ticket u m hu
      have hne : m ≠ s.ownerTicket := fun hm => he (hs.apart u t _ hu (hm ▸ howner))
      omega
  · by_cases heu : u = t
    · simp [TicketLock.goto, heu, TicketPc.ticket] at hu
    · by_cases hev : v = t
      · simp [TicketLock.goto, hev, TicketPc.ticket] at hv
      · simp only [TicketLock.goto, Function.update_of_ne heu, Function.update_of_ne hev] at hu hv
        exact hs.apart u v m hu hv
  · by_cases he : u = t
    · simp [TicketLock.goto, he, TicketPc.holds] at hu
    · simp only [TicketLock.goto, Function.update_of_ne he, hother u he] at hu
      cases hu
  · by_cases he : u = t
    · simp [TicketLock.goto, he, TicketPc.Read]
    · simp only [TicketLock.goto, Function.update_of_ne he]
      exact (hs.read u).mono (Nat.le_succ _) (Nat.le_refl _)
  · have htally := tally_update TicketPc.holdCount s.pc (Finset.mem_univ t) .idle
    have hone : (s.pc t).holdCount = 1 := by rw [ht]; rfl
    have hnone : TicketPc.idle.holdCount = 0 := rfl
    have hzero : tally Finset.univ TicketPc.holdCount (Function.update s.pc t .idle) = 0 := by
      apply holdCount_eq_zero (s := s.goto t .idle)
      intro u
      by_cases he : u = t
      · simp [TicketLock.goto, he, TicketPc.holds]
      · simpa [TicketLock.goto, he] using hother u he
    simp only [TicketLock.goto, hs.granted, hzero]
    congr 1
    omega

theorem Inv.threadStep {T : Type} [Fintype T] [DecidableEq T] {s u : TicketLock T} (hs : s.Inv)
    {t : T} (hissued : u.issued < 2 ^ 64) (h : s.threadStep t = some u) : u.Inv := by
  unfold TicketLock.threadStep at h
  cases ht : s.pc t with
  | idle | holding k => simp [ht] at h
  | fetchAdd =>
    simp only [ht, Option.some.injEq] at h
    subst h
    have hwrap : (s.nextFreeTicket + 1) % 2 ^ 64 = s.issued + 1 := by
      rw [hs.next, Nat.mod_eq_of_lt hissued]
    rw [hwrap]
    exact hs.take (by rw [ht]; rfl) (by rw [hs.next]; rfl) nofun trivial
      (by simp [TicketPc.holds, TicketLock.goto])
  | wait k =>
    simp only [ht] at h
    split at h
    · simp only [Option.some.injEq] at h
      exact h ▸ hs
    · rename_i hk
      simp only [Option.some.injEq] at h
      subst h
      obtain rfl : k = s.ownerTicket := by simpa using hk
      exact hs.acquire ht
  | loadOwner =>
    simp only [ht, Option.some.injEq] at h
    subst h
    exact hs.goto (by rw [ht]; rfl) (by rw [ht]; rfl) (Nat.le_refl _)
  | loadNext seen =>
    simp only [ht, Option.some.injEq] at h
    subst h
    have hread := hs.read t
    rw [ht] at hread
    have houtstanding := hs.outstanding
    have hread : seen ≤ s.ownerTicket := hread
    exact hs.goto (by rw [ht]; rfl) (by rw [ht]; rfl)
      ⟨hread, s.issued, by omega, Nat.le_refl _, by rw [hs.next]⟩
  | compareExchange seen desired =>
    have hread := hs.read t
    rw [ht] at hread
    obtain ⟨hseen, next, hnext, hle, hdesired⟩ := hread
    simp only [ht] at h
    split at h
    · rename_i heq
      simp only [Option.some.injEq] at h
      subst h
      -- nothing was taken or given back since the first load
      have houtstanding := hs.outstanding
      have heq : s.issued = seen := hs.next.symm.trans heq
      have hsame : next = s.issued := by omega
      have hwrap : desired = s.issued + 1 := by
        rw [hdesired, hsame, Nat.mod_eq_of_lt hissued]
      subst heq
      rw [hwrap]
      exact hs.take (by rw [ht]; rfl) rfl (fun _ => by omega) trivial (by simp [TicketPc.holds])
    · simp only [Option.some.injEq] at h
      subst h
      exact hs.goto (by rw [ht]; rfl) (by rw [ht]; rfl) trivial
  | unlock k =>
    simp only [ht, Option.some.injEq] at h
    subst h
    have howner := hs.holder t (by rw [ht]; rfl)
    have hlt := (hs.ticket t _ howner).2
    have hissued : s.issued < 2 ^ 64 := hissued
    have hwrap : (s.ownerTicket + 1) % 2 ^ 64 = s.ownerTicket + 1 :=
      Nat.mod_eq_of_lt (by omega)
    rw [hwrap]
    exact hs.unlock ht

theorem Inv.step {T : Type} [Fintype T] [DecidableEq T] {s u : TicketLock T} (hs : s.Inv)
    {l : TicketLabel T} (hissued : u.issued < 2 ^ 64) (h : s.step l = some u) : u.Inv := by
  cases l with
  | lock t | tryLock t | unlock t =>
    cases ht : s.pc t <;> simp only [TicketLock.step, ht, reduceCtorEq, Option.some.injEq] at h
    subst h
    exact hs.goto (by rw [ht]; rfl) (by rw [ht]; rfl) trivial
  | step t => exact hs.threadStep hissued h

theorem issued_mono {T : Type} [DecidableEq T] {s u : TicketLock T} {l : TicketLabel T}
    (h : s.step l = some u) : s.issued ≤ u.issued := by
  cases l with
  | lock t | tryLock t | unlock t =>
    cases ht : s.pc t <;> simp only [TicketLock.step, ht, reduceCtorEq, Option.some.injEq] at h
    subst h
    exact Nat.le_refl _
  | step t =>
    simp only [TicketLock.step, TicketLock.threadStep] at h
    split at h
    · cases h
    · cases h
    · simp only [Option.some.injEq] at h
      subst h
      exact Nat.le_succ _
    · split at h <;> simp only [Option.some.injEq] at h <;> subst h <;> exact Nat.le_refl _
    · simp only [Option.some.injEq] at h
      subst h
      exact Nat.le_refl _
    · simp only [Option.some.injEq] at h
      subst h
      exact Nat.le_refl _
    · split at h <;> simp only [Option.some.injEq] at h <;> subst h
      · exact Nat.le_succ _
      · exact Nat.le_refl _
    · simp only [Option.some.injEq] at h
      subst h
      exact Nat.le_refl _

theorem threadStep_frame {T : Type} [DecidableEq T] {s u : TicketLock T} {t v : T}
    (h : s.threadStep v = some u) (hne : t ≠ v) : u.pc t = s.pc t := by
  unfold TicketLock.threadStep at h
  cases hv : s.pc v with
  | idle | holding k => simp [hv] at h
  | wait k | compareExchange seen desired =>
    simp only [hv] at h
    split at h <;> simp only [Option.some.injEq] at h <;> subst h <;> simp [TicketLock.goto, hne]
  | fetchAdd | loadOwner | loadNext seen | unlock k =>
    simp only [hv, Option.some.injEq] at h
    subst h
    simp [TicketLock.goto, hne]

/-- A `Lock` returns with the lock, and its ticket is the next one granted. -/
theorem lock_returns {T : Type} [DecidableEq T] {s u : TicketLock T} {t : T} {l : TicketLabel T}
    (ht : (s.pc t).locking = true) (h : s.step l = some u) (hu : (u.pc t).locking = false) :
    u.pc t = .holding s.ownerTicket ∧ u.granted = s.granted ++ [s.ownerTicket] := by
  cases l with
  | lock v | tryLock v | unlock v =>
    cases hv : s.pc v <;> simp only [TicketLock.step, hv, reduceCtorEq, Option.some.injEq] at h
    subst h
    have hne : t ≠ v := by
      rintro rfl
      simp [hv, TicketPc.locking] at ht
    simp [TicketLock.goto, hne, ht] at hu
  | step v =>
    by_cases hne : t = v
    · subst hne
      simp only [TicketLock.step, TicketLock.threadStep] at h
      cases hpc : s.pc t with
      | fetchAdd =>
        simp only [hpc, Option.some.injEq] at h
        subst h
        simp [TicketLock.goto, TicketPc.locking] at hu
      | wait k =>
        simp only [hpc] at h
        split at h
        · simp only [Option.some.injEq] at h
          rw [← h, ht] at hu
          cases hu
        · rename_i hk
          obtain rfl : k = s.ownerTicket := by simpa using hk
          simp only [Option.some.injEq] at h
          subst h
          simp [TicketLock.goto]
      | _ => simp [hpc, TicketPc.locking] at ht
    · rw [threadStep_frame h hne, ht] at hu
      cases hu

/-- Some other thread holds the lock or waits for it. -/
def Contended {T : Type} (s : TicketLock T) (t : T) : Prop :=
  ∃ u, u ≠ t ∧ (s.pc u).claims = true

/-- What a `TryLock` that is about to make its compare-exchange returns. -/
def tryLockReturns {T : Type} (s : TicketLock T) (t : T) : Option Bool :=
  match s.pc t with
  | .compareExchange lastSeenOwner _ => some (s.nextFreeTicket == lastSeenOwner)
  | _ => none

/-- The caller holds the lock after a compare-exchange that succeeds, and only then. -/
theorem Inv.tryLockReturns {T : Type} [Fintype T] [DecidableEq T] {s u : TicketLock T} {t : T}
    {b : Bool} (hu : u.Inv) (hb : s.tryLockReturns t = some b) (h : s.step (.step t) = some u) :
    b = true ↔ u.pc t = .holding u.ownerTicket := by
  unfold TicketLock.tryLockReturns at hb
  simp only [TicketLock.step, TicketLock.threadStep] at h
  cases hpc : s.pc t with
  | idle | fetchAdd | wait k | loadOwner | loadNext seen | holding k | unlock k => simp [hpc] at hb
  | compareExchange seen desired =>
    simp only [hpc, Option.some.injEq] at hb h
    subst hb
    split at h
    · rename_i heq
      simp only [Option.some.injEq] at h
      subst h
      have howner := hu.holder t (by simp [TicketLock.goto, TicketPc.holds])
      simp only [TicketLock.goto, Function.update_self, TicketPc.ticket, Option.some.injEq]
        at howner
      simp [TicketLock.goto, heq, howner]
    · rename_i hne
      simp only [Option.some.injEq] at h
      subst h
      simp [TicketLock.goto, hne]

/-- A `TryLock` of `t` runs from its first load in `s` to a compare-exchange that
fails in `v`. -/
structure TryLockFails {T : Type} [DecidableEq T] (s v : TicketLock T) (t : T)
    (ls : List (TicketLabel T)) : Prop where
  start : s.pc t = .loadOwner
  run : (ticketLock T).exec s ls = some v
  during : ∀ xs x, xs.IsPrefix ls → (ticketLock T).exec s xs = some x → (x.pc t).trying = true
  fails : v.tryLockReturns t = some false

/-- The lock is free, and all that `t` has read of it is still so. -/
def Quiet {T : Type} (s : TicketLock T) (t : T) : Prop :=
  s.nextFreeTicket = s.ownerTicket ∧
    match s.pc t with
    | .loadOwner => True
    | .loadNext seen | .compareExchange seen _ => seen = s.nextFreeTicket
    | _ => False

theorem Quiet.frame {T : Type} [DecidableEq T] {s : TicketLock T} {t v : T} {pc : TicketPc}
    (h : s.Quiet t) (hv : v ≠ t) : (s.goto v pc).Quiet t := by
  unfold Quiet at h ⊢
  simpa [TicketLock.goto, hv.symm] using h

theorem contended_goto {T : Type} [DecidableEq T] {s : TicketLock T} {t v : T} {pc : TicketPc}
    (hv : v ≠ t) (hpc : pc.claims = true) : (s.goto v pc).Contended t :=
  ⟨v, hv, by simp [TicketLock.goto, hpc]⟩

/-- Without contention nobody else touches the counters. -/
theorem Quiet.otherStep {T : Type} [DecidableEq T] {s u : TicketLock T} {t v : T}
    (hs : s.Quiet t) (hv : v ≠ t) (hbefore : ¬ s.Contended t) (hafter : ¬ u.Contended t)
    (h : s.threadStep v = some u) : u.Quiet t := by
  have hclaims : (s.pc v).claims = false := by
    cases hc : (s.pc v).claims with
    | false => rfl
    | true => exact (hbefore ⟨v, hv, hc⟩).elim
  unfold TicketLock.threadStep at h
  cases hpc : s.pc v with
  | idle => simp [hpc] at h
  | fetchAdd =>
    simp only [hpc, Option.some.injEq] at h
    subst h
    have hcontended : (s.goto v (.wait s.nextFreeTicket)).Contended t := contended_goto hv rfl
    exact (hafter hcontended).elim
  | wait k | holding k | unlock k =>
    rw [hpc] at hclaims
    cases hclaims
  | loadOwner | loadNext seen =>
    simp only [hpc, Option.some.injEq] at h
    subst h
    exact hs.frame hv
  | compareExchange seen desired =>
    simp only [hpc] at h
    split at h
    · simp only [Option.some.injEq] at h
      subst h
      have hcontended : (s.goto v (.holding seen)).Contended t := contended_goto hv rfl
      exact (hafter hcontended).elim
    · simp only [Option.some.injEq] at h
      subst h
      exact hs.frame hv

theorem Quiet.step {T : Type} [DecidableEq T] {s u : TicketLock T} {t : T} (hs : s.Quiet t)
    {l : TicketLabel T} (htrying : (u.pc t).trying = true) (hbefore : ¬ s.Contended t)
    (hafter : ¬ u.Contended t) (h : s.step l = some u) : u.Quiet t := by
  have busy (pc : TicketPc) (hpc : s.pc t = pc) (htry : pc.trying = false) : False := by
    obtain ⟨-, hs⟩ := hs
    cases pc <;> simp_all [TicketPc.trying]
  cases l with
  | lock v | tryLock v | unlock v =>
    cases hpc : s.pc v <;> simp only [TicketLock.step, hpc, reduceCtorEq, Option.some.injEq] at h
    subst h
    have hv : v ≠ t := fun he => busy _ (he ▸ hpc) rfl
    exact hs.frame hv
  | step v =>
    by_cases hv : v = t
    · subst hv
      obtain ⟨hfree, hread⟩ := hs
      simp only [TicketLock.step, TicketLock.threadStep] at h
      cases hpc : s.pc v with
      | idle | fetchAdd | wait k | holding k | unlock k => simp [hpc] at hread
      | loadOwner =>
        simp only [hpc, Option.some.injEq] at h
        subst h
        exact ⟨hfree, by simpa [TicketLock.goto] using hfree.symm⟩
      | loadNext seen =>
        simp only [hpc, Option.some.injEq] at h hread
        subst h
        exact ⟨hfree, by simpa [TicketLock.goto] using hread⟩
      | compareExchange seen desired =>
        simp only [hpc] at h
        split at h
        · simp only [Option.some.injEq] at h
          subst h
          simp [TicketLock.goto, TicketPc.trying] at htrying
        · simp only [Option.some.injEq] at h
          subst h
          simp [TicketLock.goto, TicketPc.trying] at htrying
    · exact hs.otherStep hv hbefore hafter h

theorem Quiet.exec {T : Type} [DecidableEq T] {t : T} {v : TicketLock T}
    {ls : List (TicketLabel T)} {s : TicketLock T} (hs : s.Quiet t)
    (hrun : (ticketLock T).exec s ls = some v)
    (hduring : ∀ xs x, xs.IsPrefix ls → (ticketLock T).exec s xs = some x →
      (x.pc t).trying = true ∧ ¬ x.Contended t) : v.Quiet t := by
  induction ls generalizing s with
  | nil => exact Option.some.inj hrun ▸ hs
  | cons l ls ih =>
    cases hl : (ticketLock T).step s l with
    | none => simp [hl] at hrun
    | some u =>
      simp only [Machine.exec_cons, hl, Option.bind_some] at hrun
      have hbefore := (hduring [] s (List.nil_prefix) rfl).2
      obtain ⟨htrying, hafter⟩ := hduring [l] u (by simp) (by simp [hl])
      refine ih (hs.step htrying hbefore hafter hl) hrun fun xs x hxs hx => ?_
      exact hduring (l :: xs) x (List.cons_prefix_cons.mpr ⟨rfl, hxs⟩) (by simp [hl, hx])

theorem Inv.quiet {T : Type} [Fintype T] {s : TicketLock T} (hs : s.Inv) {t : T}
    (ht : s.pc t = .loadOwner) (hfree : ¬ s.Contended t) : s.Quiet t := by
  have hnone : tally Finset.univ TicketPc.claimCount s.pc = 0 := by
    refine tally_eq_zero.mpr fun u _ => ?_
    by_cases hu : u = t
    · rw [hu, ht]
      rfl
    · cases hc : (s.pc u).claims with
      | false => simp [TicketPc.claimCount, hc]
      | true => exact (hfree ⟨u, hu, hc⟩).elim
  have houtstanding := hs.outstanding
  have hnext := hs.next
  refine ⟨by omega, ?_⟩
  rw [ht]
  trivial

/-- The lock is exclusive, and its tickets are handed out and served in order. -/
structure Sound {T : Type} [Fintype T] (s : TicketLock T) : Prop where
  exclusive : ∀ t u, (s.pc t).holds = true → (s.pc u).holds = true → t = u
  owner_le_next : s.ownerTicket ≤ s.nextFreeTicket
  outstanding : s.nextFreeTicket - s.ownerTicket = tally Finset.univ TicketPc.claimCount s.pc
  holder : ∀ t, (s.pc t).holds = true → (s.pc t).ticket = some s.ownerTicket
  ordered : s.granted = List.range s.granted.length

end TicketLock

theorem ticketLock_inv {T : Type} [Fintype T] [DecidableEq T] {s : TicketLock T}
    (h : (ticketLock T).Reachable s) (hissued : s.issued < 2 ^ 64) : s.Inv := by
  have hguarded := h.guard_of_mono (m := TicketLock.issued)
    (fun _ _ _ ht => TicketLock.issued_mono ht) hissued
  apply hguarded.invariant
  · have hnone (count : TicketPc → Nat) (hcount : count .idle = 0) :
        tally Finset.univ count (fun _ : T => .idle) = 0 := tally_eq_zero.mpr fun _ _ => hcount
    have houtstanding : 0 = 0 + tally Finset.univ TicketPc.claimCount (fun _ : T => .idle) := by
      rw [hnone TicketPc.claimCount rfl]
    have hgranted : [] =
        List.range (0 + tally Finset.univ TicketPc.holdCount (fun _ : T => .idle)) := by
      rw [hnone TicketPc.holdCount rfl]
      rfl
    exact ⟨rfl, houtstanding, nofun, nofun, nofun, fun _ => trivial, hgranted⟩
  · intro s l u _ hs hu
    obtain ⟨hbound, hstep⟩ := Machine.guard_step.mp hu
    exact hs.step (by simpa [hstep] using hbound) hstep

theorem ticketLock_sound {T : Type} [Fintype T] [DecidableEq T] {s : TicketLock T}
    (h : (ticketLock T).Reachable s) (hissued : s.issued < 2 ^ 64) :
    s.Sound ∧
      (∀ t l u, (s.pc t).locking = true → s.step l = some u → (u.pc t).locking = false →
        u.pc t = .holding s.ownerTicket ∧ u.granted = s.granted ++ [s.ownerTicket]) ∧
      (∀ t b u, s.tryLockReturns t = some b → s.step (.step t) = some u → u.issued < 2 ^ 64 →
        (b = true ↔ u.pc t = .holding u.ownerTicket)) ∧
      ∀ t ls v, s.TryLockFails v t ls →
        ∃ xs x, xs.IsPrefix ls ∧ (ticketLock T).exec s xs = some x ∧ x.Contended t := by
  have hs := ticketLock_inv h hissued
  have houtstanding := hs.outstanding
  have hnext := hs.next
  refine ⟨⟨fun t u ht hu => hs.apart t u _ (hs.holder t ht) (hs.holder u hu), by omega, by omega,
    hs.holder, ?_⟩, fun t l u ht hstep hu => TicketLock.lock_returns ht hstep hu,
    fun t b u hb hstep hu => ?_, fun t ls v hfails => ?_⟩
  · rw [hs.granted, List.length_range]
  · exact (ticketLock_inv (.step (l := .step t) h hstep) hu).tryLockReturns hb hstep
  · by_contra hnever
    have hnever (xs : List (TicketLabel T)) (x : TicketLock T) (hxs : xs.IsPrefix ls)
        (hx : (ticketLock T).exec s xs = some x) : ¬ x.Contended t :=
      fun hc => hnever ⟨xs, x, hxs, hx, hc⟩
    have hquiet := (hs.quiet hfails.start (hnever [] s List.nil_prefix rfl)).exec hfails.run
      fun xs x hxs hx => ⟨hfails.during xs x hxs hx, hnever xs x hxs hx⟩
    have hread := hquiet.2
    have hfalse := hfails.fails
    unfold TicketLock.tryLockReturns at hfalse
    cases hpc : v.pc t with
    | idle | fetchAdd | wait k | loadOwner | loadNext seen | holding k | unlock k =>
      simp [hpc] at hfalse
    | compareExchange seen desired =>
      simp only [hpc] at hread
      simp [hpc, hread] at hfalse

/-- Thread 1 holds the lock while thread 0 tries: the attempt fails. -/
theorem ticketLock_sound_contended : ∃ s : TicketLock (Fin 2),
    (ticketLock (Fin 2)).Reachable s ∧ s.Sound ∧ s.pc 0 = .loadOwner ∧ s.pc 1 = .holding 0 ∧
      ∃ xs x, xs.IsPrefix [.step 0, .step 0] ∧
        (ticketLock (Fin 2)).exec s xs = some x ∧ x.Contended 0 := by
  have hreach := (ticketLock (Fin 2)).reachable_of_exec
    [.lock 1, .step 1, .step 1, .tryLock 0] rfl
  have hsound := ticketLock_sound hreach (by decide)
  refine ⟨_, hreach, hsound.1, rfl, rfl,
    hsound.2.2.2 0 [.step 0, .step 0] _ ⟨rfl, rfl, ?_, rfl⟩⟩
  intro xs x hxs hx
  obtain rfl | rfl | rfl : xs = [] ∨ xs = [.step 0] ∨ xs = [.step 0, .step 0] := by
    simpa [List.prefix_cons_iff, and_or_left, exists_or] using hxs
  · exact Option.some.inj hx ▸ rfl
  · exact Option.some.inj hx ▸ rfl
  · exact Option.some.inj hx ▸ rfl

end ConcurrentProgramming.Sync

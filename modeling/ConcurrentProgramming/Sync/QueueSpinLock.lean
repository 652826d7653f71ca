import ConcurrentProgramming.Interleaving.Machine
import Mathlib.Data.List.Nodup
import Mathlib.Logic.Function.Basic

/-!
The queue spinlock. Every load, store, exchange and compare-exchange of `Acquire`
and `Release` is a step; the storage of a guard is free for another one as soon
as its `Release` has returned.
-/

set_option autoImplicit false

namespace ConcurrentProgramming.Sync
open Interleaving

structure SpinNode (N : Type) where
  next : Option N
  notChanged : Bool
  deriving DecidableEq, Repr

/-- A guard in `Acquire` down to `spin`, and in `Release` from `compareExchange`. -/
inductive GuardPc (N : Type) where
  | uncreated
  | exchange
  | link (prev : N)
  | spin
  | critical
  | compareExchange
  | waitNext
  | loadNext
  | store (next : N)
  | released
  deriving DecidableEq, Repr

/-- `occupied` says which storage is in use; `exchanged` and `granted` record the
guards in the order of their exchanges and of their returns from `Acquire`. -/
structure QueueSpinLock (G N : Type) where
  end_ : Option N
  nodes : N → SpinNode N
  occupied : N → Bool
  guards : G → GuardPc N
  exchanged : List G
  granted : List G

inductive SpinLockLabel (G : Type) where
  | create (g : G)
  | step (g : G)
  | destroy (g : G)
  deriving DecidableEq, Repr

namespace QueueSpinLock

def goto {G N : Type} [DecidableEq G] (s : QueueSpinLock G N) (g : G) (pc : GuardPc N) :
    QueueSpinLock G N := { s with guards := Function.update s.guards g pc }

def setNode {G N : Type} [DecidableEq N] (s : QueueSpinLock G N) (p : N) (x : SpinNode N) :
    QueueSpinLock G N := { s with nodes := Function.update s.nodes p x }

/-- `Release` returns, and the guard is gone. -/
def leave {G N : Type} [DecidableEq G] [DecidableEq N] (s : QueueSpinLock G N) (g : G) (p : N) :
    QueueSpinLock G N :=
  { s.goto g .released with occupied := Function.update s.occupied p false }

def guardStep {G N : Type} [DecidableEq G] [DecidableEq N] (node : G → N)
    (s : QueueSpinLock G N) (g : G) : Option (QueueSpinLock G N) :=
  match s.guards g with
  | .uncreated | .critical | .released => none
  | .exchange =>
    match s.end_ with
    | some prev =>
      some { s.goto g (.link prev) with
        end_ := some (node g), exchanged := s.exchanged ++ [g] }
    | none =>
      some { s.goto g .critical with
        end_ := some (node g), exchanged := s.exchanged ++ [g], granted := s.granted ++ [g] }
  | .link prev =>
    some ((s.setNode prev { s.nodes prev with next := some (node g) }).goto g .spin)
  | .spin =>
    if (s.nodes (node g)).notChanged then some s
    else some { s.goto g .critical with granted := s.granted ++ [g] }
  | .compareExchange =>
    if s.end_ = some (node g) then some { s.leave g (node g) with end_ := none }
    else some (s.goto g .waitNext)
  | .waitNext =>
    match (s.nodes (node g)).next with
    | none => some s
    | some _ => some (s.goto g .loadNext)
  | .loadNext => (s.nodes (node g)).next.map fun next => s.goto g (.store next)
  | .store next =>
    some ((s.setNode next { s.nodes next with notChanged := false }).leave g (node g))

def step {G N : Type} [DecidableEq G] [DecidableEq N] (node : G → N) (s : QueueSpinLock G N) :
    SpinLockLabel G → Option (QueueSpinLock G N)
  | .create g =>
    match s.guards g with
    | .uncreated =>
      if s.occupied (node g) then none
      else some { (s.setNode (node g) ⟨none, true⟩).goto g .exchange with
        occupied := Function.update s.occupied (node g) true }
    | _ => none
  | .step g => s.guardStep node g
  | .destroy g =>
    match s.guards g with
    | .critical => some (s.goto g .compareExchange)
    | _ => none

end QueueSpinLock

/-- `node` is the address of the node of each guard; guards may share one, if not
at the same time. -/
def queueSpinLock {G N : Type} [DecidableEq G] [DecidableEq N] (node : G → N) :
    Machine (QueueSpinLock G N) (SpinLockLabel G) where
  init := ⟨none, fun _ => ⟨none, true⟩, fun _ => false, fun _ => .uncreated, [], []⟩
  step := QueueSpinLock.step node

/-- From the exchange to the end of `Release`. -/
def GuardPc.queued {N : Type} : GuardPc N → Bool
  | .uncreated | .exchange | .released => false
  | _ => true

def GuardPc.live {N : Type} : GuardPc N → Bool
  | .uncreated | .released => false
  | _ => true

theorem GuardPc.live_of_queued {N : Type} {pc : GuardPc N} (h : pc.queued = true) :
    pc.live = true := by
  cases pc <;> simp_all [queued, live]

namespace QueueSpinLock

/-- The guards behind `prev`: each has yet to link itself to the one before it,
or spins. -/
def Follows {G N : Type} (node : G → N) (s : QueueSpinLock G N) : G → List G → Prop
  | prev, [] => (s.nodes (node prev)).next = none
  | prev, g :: rest => (s.nodes (node g)).notChanged = true ∧
      (s.guards g = .link (node prev) ∧ (s.nodes (node prev)).next = none ∨
        s.guards g = .spin ∧ (s.nodes (node prev)).next = some (node g)) ∧
      s.Follows node g rest

/-- The first guard holds the lock, is on its way to hand it over to those in
`rest`, or has been handed it. -/
def Leads {G N : Type} (node : G → N) (s : QueueSpinLock G N) (g : G) (rest : List G) : Prop :=
  match s.guards g with
  | .critical | .compareExchange => True
  | .waitNext => rest ≠ []
  | .loadNext => (s.nodes (node g)).next ≠ none
  | .store next => (s.nodes (node g)).next = some next
  | .spin => (s.nodes (node g)).notChanged = false
  | _ => False

def Shape {G N : Type} (node : G → N) (s : QueueSpinLock G N) : List G → Prop
  | [] => True
  | g :: rest => s.Leads node g rest ∧ s.Follows node g rest

/-- The guard at the front, once its `Acquire` has returned. -/
def front {G N : Type} (s : QueueSpinLock G N) : List G → List G
  | [] => []
  | g :: _ =>
    match s.guards g with
    | .spin => []
    | _ => [g]

structure Line {G N : Type} (node : G → N) (s : QueueSpinLock G N) (line : List G) : Prop where
  nodup : line.Nodup
  mem : ∀ g, g ∈ line ↔ (s.guards g).queued = true
  end_ : s.end_ = line.getLast?.map node
  shape : s.Shape node line

/-- Two guards in use are at different addresses. -/
structure Storage {G N : Type} (node : G → N) (s : QueueSpinLock G N) : Prop where
  occupied : ∀ g, (s.guards g).live = true → s.occupied (node g) = true
  apart : ∀ g h, (s.guards g).live = true → (s.guards h).live = true → node g = node h → g = h
  fresh : ∀ g, s.guards g = .exchange → s.nodes (node g) = ⟨none, true⟩

structure Inv {G N : Type} (node : G → N) (s : QueueSpinLock G N) : Prop where
  storage : s.Storage node
  line : ∃ old line, s.Line node line ∧ s.exchanged = old ++ line ∧
    s.granted = old ++ s.front line

theorem Follows.congr {G N : Type} {node : G → N} {s t : QueueSpinLock G N} {prev : G}
    {rest : List G} (h : s.Follows node prev rest)
    (hnext : (t.nodes (node prev)).next = (s.nodes (node prev)).next)
    (hnodes : ∀ g ∈ rest, t.nodes (node g) = s.nodes (node g))
    (hguards : ∀ g ∈ rest, t.guards g = s.guards g) : t.Follows node prev rest := by
  induction rest generalizing prev with
  | nil => exact hnext.trans h
  | cons g rest ih =>
    obtain ⟨hflag, hbehind, hrest⟩ := h
    have hnode := hnodes g (by simp)
    refine ⟨?_, ?_, ih hrest (by rw [hnode]) (fun k hk => hnodes k (List.mem_cons_of_mem _ hk))
      fun k hk => hguards k (List.mem_cons_of_mem _ hk)⟩
    · rwa [hnode]
    · rwa [hguards g (by simp), hnext]

/-- A newcomer, after its exchange. -/
theorem Follows.append {G N : Type} {node : G → N} {s : QueueSpinLock G N} {prev g : G}
    {rest : List G} (h : s.Follows node prev rest) {last : G}
    (hlast : (prev :: rest).getLast? = some last) (hg : s.guards g = .link (node last))
    (hfresh : s.nodes (node g) = ⟨none, true⟩) : s.Follows node prev (rest ++ [g]) := by
  induction rest generalizing prev with
  | nil =>
    obtain rfl : prev = last := by simpa using hlast
    refine ⟨by rw [hfresh], .inl ⟨hg, h⟩, ?_⟩
    show (s.nodes (node g)).next = none
    rw [hfresh]
  | cons k rest ih =>
    obtain ⟨hflag, hbehind, hrest⟩ := h
    exact ⟨hflag, hbehind, ih hrest (by rwa [List.getLast?_cons_cons] at hlast)⟩

/-- A guard links itself to the one before it. -/
theorem Follows.link {G N : Type} [DecidableEq G] [DecidableEq N] {node : G → N}
    {s : QueueSpinLock G N} {prev g : G} {rest : List G} {p : N} (h : s.Follows node prev rest)
    (hnodup : (prev :: rest).Nodup)
    (hapart : ∀ a ∈ prev :: rest, ∀ b ∈ prev :: rest, node a = node b → a = b) (hg : g ∈ rest)
    (hp : s.guards g = .link p) :
    ∃ q xs ys, prev :: rest = xs ++ q :: g :: ys ∧ node q = p ∧ (s.nodes p).next = none ∧
      ((s.setNode p { s.nodes p with next := some (node g) }).goto g .spin).Follows node
        prev rest := by
  induction rest generalizing prev with
  | nil => cases hg
  | cons k rest ih =>
    obtain ⟨hflag, hbehind, hrest⟩ := h
    have hk : k ≠ prev := fun he => (List.nodup_cons.mp hnodup).1 (by simp [he])
    have hkrest : k ∉ rest := (List.nodup_cons.mp (List.nodup_cons.mp hnodup).2).1
    by_cases hkg : k = g
    · subst hkg
      obtain ⟨hlink, hnext⟩ : p = node prev ∧ (s.nodes (node prev)).next = none := by
        rcases hbehind with ⟨hlink, hnext⟩ | ⟨hspin, -⟩
        · rw [hp] at hlink
          exact ⟨GuardPc.link.inj hlink, hnext⟩
        · rw [hp] at hspin
          cases hspin
      subst hlink
      refine ⟨prev, [], rest, rfl, rfl, hnext, ?_, .inr ⟨?_, ?_⟩, ?_⟩
      · have hne : node k ≠ node prev := fun he => hk (hapart k (by simp) prev (by simp) he)
        simpa [goto, setNode, hne] using hflag
      · simp [goto]
      · simp [goto, setNode]
      · refine hrest.congr ?_ (fun a ha => ?_) fun a ha => ?_
        · have hne : node k ≠ node prev := fun he => hk (hapart k (by simp) prev (by simp) he)
          simp [goto, setNode, hne]
        · have hne : node a ≠ node prev := fun he =>
            (List.nodup_cons.mp hnodup).1
              (hapart a (by simp [ha]) prev (by simp) he ▸ by simp [ha])
          simp [goto, setNode, hne]
        · have hne : a ≠ k := fun he => hkrest (he ▸ ha)
          simp [goto, setNode, hne]
    · have hgrest : g ∈ rest := by
        rcases List.mem_cons.mp hg with rfl | hg
        · exact (hkg rfl).elim
        · exact hg
      obtain ⟨q, xs, ys, hsplit, hq, hnext, hrest⟩ := ih hrest (List.nodup_cons.mp hnodup).2
        (fun a ha b hb => hapart a (List.mem_cons_of_mem _ ha) b (List.mem_cons_of_mem _ hb))
        hgrest
      have hqmem : q ∈ k :: rest := by simp [hsplit]
      have hne : node prev ≠ p := fun he =>
        (List.nodup_cons.mp hnodup).1
          (hapart prev (by simp) q (List.mem_cons_of_mem _ hqmem) (he.trans hq.symm) ▸ hqmem)
      refine ⟨q, prev :: xs, ys, by simp [hsplit], hq, hnext, ?_, ?_, hrest⟩
      · by_cases hkp : node k = p
        · subst hkp
          simpa [goto, setNode] using hflag
        · simpa [goto, setNode, hkp] using hflag
      · simpa [goto, setNode, hkg, hne] using hbehind

theorem Follows.of_mem {G N : Type} {node : G → N} {s : QueueSpinLock G N} {prev g : G}
    {rest : List G} (h : s.Follows node prev rest) (hg : g ∈ rest) :
    (s.nodes (node g)).notChanged = true ∧ ((∃ p, s.guards g = .link p) ∨ s.guards g = .spin) := by
  induction rest generalizing prev with
  | nil => cases hg
  | cons k rest ih =>
    obtain ⟨hflag, hbehind, hrest⟩ := h
    rcases List.mem_cons.mp hg with rfl | hg
    · exact ⟨hflag, hbehind.imp (fun hb => ⟨_, hb.1⟩) fun hb => hb.1⟩
    · exact ih hrest hg

/-- A guard that neither links itself nor waits for its flag is the first. -/
theorem Line.eq_cons {G N : Type} {node : G → N} {s : QueueSpinLock G N} {line : List G}
    (h : s.Line node line) {g : G} (hg : (s.guards g).queued = true)
    (hlink : ∀ p, s.guards g ≠ .link p)
    (hspin : s.guards g = .spin → (s.nodes (node g)).notChanged = false) :
    ∃ rest, line = g :: rest := by
  have hmem := (h.mem g).mpr hg
  cases line with
  | nil => cases hmem
  | cons k rest =>
    rcases List.mem_cons.mp hmem with rfl | hmem
    · exact ⟨rest, rfl⟩
    · obtain ⟨hflag, ⟨p, hp⟩ | hs⟩ := h.shape.2.of_mem hmem
      · exact (hlink p hp).elim
      · rw [hspin hs] at hflag
        cases hflag

theorem Line.apart {G N : Type} {node : G → N} {s : QueueSpinLock G N} {line : List G}
    (h : s.Line node line) (hs : s.Storage node) {a b : G} (ha : a ∈ line) (hb : b ∈ line)
    (he : node a = node b) : a = b :=
  hs.apart a b (GuardPc.live_of_queued ((h.mem a).mp ha))
    (GuardPc.live_of_queued ((h.mem b).mp hb)) he

/-- The first guard moves on and stays first. -/
theorem Line.goto {G N : Type} [DecidableEq G] {node : G → N} {s : QueueSpinLock G N} {g : G}
    {rest : List G} (h : s.Line node (g :: rest)) {pc : GuardPc N} (hpc : pc.queued = true)
    (hleads : (s.goto g pc).Leads node g rest) : (s.goto g pc).Line node (g :: rest) := by
  have hg := (List.nodup_cons.mp h.nodup).1
  refine ⟨h.nodup, fun k => ?_, h.end_, hleads, h.shape.2.congr rfl (fun _ _ => rfl) fun k hk => ?_⟩
  · by_cases hk : k = g
    · subst hk
      simp [QueueSpinLock.goto, hpc]
    · simpa [QueueSpinLock.goto, hk] using h.mem k
  · have hne : k ≠ g := fun he => hg (he ▸ hk)
    simp [QueueSpinLock.goto, hne]

theorem Storage.goto {G N : Type} [DecidableEq G] {node : G → N} {s : QueueSpinLock G N}
    (hs : s.Storage node) {g : G} {pc : GuardPc N} (hlive : (s.guards g).live = true)
    (hpc : pc ≠ .exchange) : (s.goto g pc).Storage node := by
  have live (k : G) (hk : ((s.goto g pc).guards k).live = true) : (s.guards k).live = true := by
    by_cases he : k = g
    · rwa [he]
    · simpa [QueueSpinLock.goto, he] using hk
  refine ⟨fun k hk => hs.occupied k (live k hk),
    fun k m hk hm => hs.apart k m (live k hk) (live m hm), fun k hk => ?_⟩
  by_cases he : k = g
  · subst he
    simp [QueueSpinLock.goto, hpc] at hk
  · simp only [QueueSpinLock.goto, Function.update_of_ne he] at hk
    exact hs.fresh k hk

/-- A store to the node of a guard that is past its exchange. -/
theorem Storage.setNode {G N : Type} [DecidableEq N] {node : G → N} {s : QueueSpinLock G N}
    (hs : s.Storage node) {q : G} (hq : (s.guards q).queued = true) (x : SpinNode N) :
    (s.setNode (node q) x).Storage node := by
  refine ⟨hs.occupied, hs.apart, fun k hk => ?_⟩
  have hne : node k ≠ node q := by
    intro he
    have hexchange : s.guards k = .exchange := hk
    obtain rfl := hs.apart k q (by rw [hexchange]; rfl) (GuardPc.live_of_queued hq) he
    rw [hexchange] at hq
    cases hq
  simpa [QueueSpinLock.setNode, hne] using hs.fresh k hk

theorem Storage.leave {G N : Type} [DecidableEq G] [DecidableEq N] {node : G → N}
    {s : QueueSpinLock G N} (hs : s.Storage node) {g : G} (hlive : (s.guards g).live = true) :
    (s.leave g (node g)).Storage node := by
  have hgoto : (s.goto g .released).Storage node := hs.goto hlive nofun
  refine ⟨fun k hk => ?_, hgoto.apart, hgoto.fresh⟩
  have hkg : k ≠ g := by
    rintro rfl
    simp [QueueSpinLock.leave, QueueSpinLock.goto, GuardPc.live] at hk
  have hk : (s.guards k).live = true := by
    simpa [QueueSpinLock.leave, QueueSpinLock.goto, hkg] using hk
  have hne : node k ≠ node g := fun he => hkg (hs.apart k g hk hlive he)
  simpa [QueueSpinLock.leave, hne] using hs.occupied k hk

theorem Storage.create {G N : Type} [DecidableEq G] [DecidableEq N] {node : G → N}
    {s : QueueSpinLock G N} (hs : s.Storage node) {g : G} (hfree : s.occupied (node g) = false) :
    ({ (s.setNode (node g) ⟨none, true⟩).goto g .exchange with
      occupied := Function.update s.occupied (node g) true } : QueueSpinLock G N).Storage node := by
  have other (k : G) (hk : (s.guards k).live = true) : node k ≠ node g := by
    intro he
    have hoccupied := hs.occupied k hk
    rw [he, hfree] at hoccupied
    cases hoccupied
  have old (k : G) (hk : k ≠ g) : Function.update s.guards g .exchange k = s.guards k :=
    Function.update_of_ne hk ..
  refine ⟨fun k hk => ?_, fun k m hk hm he => ?_, fun k hk => ?_⟩
  · by_cases hkg : k = g
    · simp [hkg]
    · have hk : (s.guards k).live = true := old k hkg ▸ hk
      simpa [other k hk] using hs.occupied k hk
  · by_cases hkg : k = g <;> by_cases hmg : m = g
    · rw [hkg, hmg]
    · subst hkg
      exact (other m (old m hmg ▸ hm) he.symm).elim
    · subst hmg
      exact (other k (old k hkg ▸ hk) he).elim
    · exact hs.apart k m (old k hkg ▸ hk) (old m hmg ▸ hm) he
  · by_cases hkg : k = g
    · simp [hkg, QueueSpinLock.goto, QueueSpinLock.setNode]
    · have hk : s.guards k = .exchange := old k hkg ▸ hk
      have hne := other k (by rw [hk]; rfl)
      simpa [QueueSpinLock.goto, QueueSpinLock.setNode, hne] using hs.fresh k hk

theorem Inv.create {G N : Type} [DecidableEq G] [DecidableEq N] {node : G → N}
    {s : QueueSpinLock G N} (hs : s.Inv node) {g : G} (hg : s.guards g = .uncreated)
    (hfree : s.occupied (node g) = false) :
    ({ (s.setNode (node g) ⟨none, true⟩).goto g .exchange with
      occupied := Function.update s.occupied (node g) true } : QueueSpinLock G N).Inv node := by
  obtain ⟨old, line, hline, hexchanged, hgranted⟩ := hs.line
  have hqueued (k : G) (hk : k ∈ line) : k ≠ g ∧ node k ≠ node g := by
    have hq := (hline.mem k).mp hk
    refine ⟨?_, fun he => ?_⟩
    · rintro rfl
      rw [hg] at hq
      cases hq
    · have hoccupied := hs.storage.occupied k (GuardPc.live_of_queued hq)
      rw [he, hfree] at hoccupied
      cases hoccupied
  refine ⟨hs.storage.create hfree, old, line, ⟨hline.nodup, fun k => ?_, hline.end_, ?_⟩,
    hexchanged, ?_⟩
  · by_cases hk : k = g
    · subst hk
      simp [hline.mem, hg, QueueSpinLock.goto, GuardPc.queued]
    · simpa [QueueSpinLock.goto, QueueSpinLock.setNode, hk] using hline.mem k
  · cases line with
    | nil => trivial
    | cons k rest =>
      obtain ⟨hleads, hfollows⟩ := hline.shape
      obtain ⟨hk, hnode⟩ := hqueued k (by simp)
      refine ⟨?_, hfollows.congr ?_ (fun m hm => ?_) fun m hm => ?_⟩
      · simpa [Leads, QueueSpinLock.goto, QueueSpinLock.setNode, hk, hnode] using hleads
      · simp [QueueSpinLock.goto, QueueSpinLock.setNode, hnode]
      · simp [QueueSpinLock.goto, QueueSpinLock.setNode,
          (hqueued m (List.mem_cons_of_mem _ hm)).2]
      · simp [QueueSpinLock.goto, QueueSpinLock.setNode,
          (hqueued m (List.mem_cons_of_mem _ hm)).1]
  · cases line with
    | nil => exact hgranted
    | cons k rest =>
      have hk := (hqueued k (by simp)).1
      simpa [front, QueueSpinLock.goto, QueueSpinLock.setNode, hk] using hgranted

theorem Inv.exchange {G N : Type} [DecidableEq G] [DecidableEq N] {node : G → N}
    {s t : QueueSpinLock G N} (hs : s.Inv node) {g : G} (hg : s.guards g = .exchange)
    (h : s.guardStep node g = some t) : t.Inv node := by
  obtain ⟨old, line, hline, hexchanged, hgranted⟩ := hs.line
  have hmem : g ∉ line := by simp [hline.mem, hg, GuardPc.queued]
  have hfresh := hs.storage.fresh g hg
  have hnodup : (line ++ [g]).Nodup := List.nodup_append.mpr
    ⟨hline.nodup, List.nodup_singleton g, fun a ha b hb =>
      (List.mem_singleton.mp hb) ▸ fun he => hmem (he ▸ ha)⟩
  have hmem' (pc : GuardPc N) (hpc : pc.queued = true) (k : G) : k ∈ line ++ [g] ↔
      (Function.update s.guards g pc k).queued = true := by
    by_cases hk : k = g
    · simp [hk, hpc]
    · simp [hk, hline.mem]
  simp only [guardStep, hg] at h
  cases hend : s.end_ with
  | none =>
    have hnil : line = [] := by simpa [hend, eq_comm] using hline.end_
    subst hnil
    simp only [hend, Option.some.injEq] at h
    subst h
    have hstorage : (s.goto g .critical).Storage node := hs.storage.goto (by rw [hg]; rfl) (by simp)
    refine ⟨⟨hstorage.occupied, hstorage.apart, hstorage.fresh⟩, old, [g],
      ⟨hnodup, hmem' _ rfl, rfl, ?_, ?_⟩, ?_, ?_⟩
    · simp [Leads, QueueSpinLock.goto]
    · show (s.nodes (node g)).next = none
      rw [hfresh]
    · simp [hexchanged]
    · simpa [front, QueueSpinLock.goto] using hgranted
  | some prev =>
    simp only [hend, Option.some.injEq] at h
    subst h
    have hstorage : (s.goto g (.link prev)).Storage node :=
      hs.storage.goto (by rw [hg]; rfl) (by simp)
    cases line with
    | nil =>
      have hend_ := hline.end_
      simp [hend] at hend_
    | cons k rest =>
      obtain ⟨last, hlast⟩ := Option.isSome_iff_exists.mp
        (show (k :: rest).getLast?.isSome = true by simp)
      obtain rfl : prev = node last := by
        have hend_ := hline.end_
        simpa [hend, hlast] using hend_
      obtain ⟨hleads, hfollows⟩ := hline.shape
      have hk : k ≠ g := fun he => hmem (by simp [he])
      have hold : (s.goto g (.link (node last))).Follows node k rest :=
        hfollows.congr rfl (fun _ _ => rfl) fun m hm => by
          have hne : m ≠ g := fun he => hmem (he ▸ List.mem_cons_of_mem _ hm)
          simp [QueueSpinLock.goto, hne]
      have hnew := hold.append hlast (by simp [QueueSpinLock.goto]) hfresh
      refine ⟨⟨hstorage.occupied, hstorage.apart, hstorage.fresh⟩, old, (k :: rest) ++ [g],
        ⟨hnodup, hmem' _ rfl, ?_, ?_, hnew.congr rfl (fun _ _ => rfl) fun _ _ => rfl⟩, ?_, ?_⟩
      · rw [List.getLast?_concat]
        rfl
      · have hpc : Function.update s.guards g (.link (node last)) k = s.guards k :=
          Function.update_of_ne hk ..
        unfold Leads at hleads ⊢
        simp only [QueueSpinLock.goto, hpc]
        split at hleads <;> simp_all
      · simp [hexchanged]
      · simpa [front, QueueSpinLock.goto, hk] using hgranted

/-- The first guard moves on within its critical section or its `Release`. -/
theorem Inv.goto {G N : Type} [DecidableEq G] {node : G → N} {s : QueueSpinLock G N}
    {old rest : List G} {g : G} {pc : GuardPc N} (hs : s.Storage node)
    (hline : s.Line node (g :: rest)) (hexchanged : s.exchanged = old ++ g :: rest)
    (hgranted : s.granted = old ++ [g]) (hpc : pc.queued = true) (hspin : pc ≠ .spin)
    (hleads : (s.goto g pc).Leads node g rest) : (s.goto g pc).Inv node := by
  have hq := (hline.mem g).mp (by simp)
  refine ⟨hs.goto (GuardPc.live_of_queued hq) ?_, old, g :: rest, hline.goto hpc hleads,
    hexchanged, ?_⟩
  · rintro rfl
    cases hpc
  · have hfront : (s.goto g pc).front (g :: rest) = [g] := by
      simp only [front, QueueSpinLock.goto, Function.update_self]
    rw [hfront]
    exact hgranted

theorem Inv.link {G N : Type} [DecidableEq G] [DecidableEq N] {node : G → N}
    {s : QueueSpinLock G N} (hs : s.Inv node) {g : G} {p : N} (hg : s.guards g = .link p) :
    ((s.setNode p { s.nodes p with next := some (node g) }).goto g .spin).Inv node := by
  obtain ⟨old, line, hline, hexchanged, hgranted⟩ := hs.line
  have hmem := (hline.mem g).mpr (by rw [hg]; rfl)
  cases line with
  | nil => cases hmem
  | cons k rest =>
    obtain ⟨hleads, hfollows⟩ := hline.shape
    have hk : k ≠ g := by
      rintro rfl
      simp [Leads, hg] at hleads
    have hgrest : g ∈ rest := (List.mem_cons.mp hmem).resolve_left hk.symm
    obtain ⟨q, xs, ys, hsplit, rfl, hnext, hnew⟩ := hfollows.link hline.nodup
      (fun a ha b hb => hline.apart hs.storage ha hb) hgrest hg
    have hq : (s.guards q).queued = true := (hline.mem q).mp (by simp [hsplit])
    have hset := hs.storage.setNode hq { s.nodes (node q) with next := some (node g) }
    have hstorage : Storage node ((s.setNode (node q)
        { s.nodes (node q) with next := some (node g) }).goto g .spin) :=
      hset.goto (by show (s.guards g).live = true; rw [hg]; rfl) nofun
    refine ⟨hstorage, old, k :: rest, ⟨hline.nodup, fun m => ?_, hline.end_, ?_, hnew⟩, hexchanged,
      ?_⟩
    · by_cases hm : m = g
      · simp [hm, QueueSpinLock.goto, GuardPc.queued, hgrest]
      · simpa [hm, QueueSpinLock.goto, QueueSpinLock.setNode] using hline.mem m
    · -- only the link of the first guard can have changed, and it was null
      unfold Leads at hleads ⊢
      by_cases hkq : node k = node q
      · simp only [QueueSpinLock.goto, QueueSpinLock.setNode, Function.update_of_ne hk, hkq,
          Function.update_self] at hleads ⊢
        split at hleads <;> simp_all
      · simp only [QueueSpinLock.goto, QueueSpinLock.setNode, Function.update_of_ne hk,
          Function.update_of_ne hkq]
        exact hleads
    · simpa [front, QueueSpinLock.goto, QueueSpinLock.setNode, hk] using hgranted

/-- The last guard is gone, and nobody came after it. -/
theorem Inv.leaveEmpty {G N : Type} [DecidableEq G] [DecidableEq N] {node : G → N}
    {s : QueueSpinLock G N} {old rest : List G} {g : G} (hs : s.Storage node)
    (hline : s.Line node (g :: rest)) (hexchanged : s.exchanged = old ++ g :: rest)
    (hgranted : s.granted = old ++ [g]) (hend : s.end_ = some (node g)) :
    ({ s.leave g (node g) with end_ := none } : QueueSpinLock G N).Inv node := by
  have hq := (hline.mem g).mp (by simp)
  have hrest : rest = [] := by
    obtain ⟨last, hlast⟩ := Option.isSome_iff_exists.mp
      (show (g :: rest).getLast?.isSome = true by simp)
    have hmem := List.mem_of_getLast? hlast
    have hnode : node last = node g := by
      have hend_ := hline.end_
      simpa [hend, hlast, eq_comm] using hend_
    obtain rfl := hline.apart hs hmem (by simp) hnode
    cases rest with
    | nil => rfl
    | cons k rest =>
      rw [List.getLast?_cons_cons] at hlast
      exact ((List.nodup_cons.mp hline.nodup).1 (List.mem_of_getLast? hlast)).elim
  subst hrest
  have hstorage := hs.leave (GuardPc.live_of_queued hq)
  refine ⟨⟨hstorage.occupied, hstorage.apart, hstorage.fresh⟩, old ++ [g], [],
    ⟨List.nodup_nil, fun k => ?_, rfl, trivial⟩, by simp [leave, QueueSpinLock.goto, hexchanged],
    by simp [leave, QueueSpinLock.goto, hgranted, front]⟩
  by_cases hk : k = g
  · simp [hk, leave, QueueSpinLock.goto, GuardPc.queued]
  · have hmem := hline.mem k
    simpa [hk, leave, QueueSpinLock.goto] using hmem

/-- The second guard is given the lock, and the first is gone. -/
theorem Inv.handOver {G N : Type} [DecidableEq G] [DecidableEq N] {node : G → N}
    {s : QueueSpinLock G N} {old rest : List G} {g : G} {next : N} (hs : s.Storage node)
    (hline : s.Line node (g :: rest)) (hexchanged : s.exchanged = old ++ g :: rest)
    (hgranted : s.granted = old ++ [g]) (hg : s.guards g = .store next) :
    ∃ h, ∃ rest', rest = h :: rest' ∧ node h = next ∧ s.guards h = .spin ∧
      ((s.setNode next { s.nodes next with notChanged := false }).leave g (node g)).Inv node := by
  have hq := (hline.mem g).mp (by simp)
  obtain ⟨hleads, hfollows⟩ := hline.shape
  have hnext : (s.nodes (node g)).next = some next := by simpa [Leads, hg] using hleads
  cases rest with
  | nil =>
    have hlast : (s.nodes (node g)).next = none := hfollows
    rw [hnext] at hlast
    cases hlast
  | cons k rest =>
    obtain ⟨hflag, hbehind, hrest⟩ := hfollows
    obtain ⟨hspin, hnode⟩ : s.guards k = .spin ∧ node k = next := by
      rcases hbehind with ⟨-, hnone⟩ | ⟨hspin, hsome⟩
      · rw [hnext] at hnone
        cases hnone
      · rw [hnext] at hsome
        exact ⟨hspin, (Option.some.inj hsome).symm⟩
    subst hnode
    have hnodup := List.nodup_cons.mp hline.nodup
    have hkg : k ≠ g := fun he => hnodup.1 (by simp [he])
    have hkq : (s.guards k).queued = true := by rw [hspin]; rfl
    refine ⟨k, rest, rfl, rfl, hspin, ?_⟩
    refine ⟨(hs.setNode hkq _).leave (GuardPc.live_of_queued hq), old ++ [g], k :: rest,
      ⟨hnodup.2, fun m => ?_, ?_, ?_, hrest.congr ?_ (fun m hm => ?_) fun m hm => ?_⟩, ?_, ?_⟩
    · by_cases hm : m = g
      · subst hm
        simp only [hnodup.1, leave, QueueSpinLock.goto, Function.update_self, false_iff]
        nofun
      · have hmem := hline.mem m
        simpa [hm, leave, QueueSpinLock.goto, QueueSpinLock.setNode] using hmem
    · have hend := hline.end_
      rwa [List.getLast?_cons_cons] at hend
    · simp [Leads, leave, QueueSpinLock.goto, QueueSpinLock.setNode, hkg, hspin]
    · simp [leave, QueueSpinLock.goto, QueueSpinLock.setNode]
    · have hne : node m ≠ node k := fun he =>
        (List.nodup_cons.mp hnodup.2).1
          (hline.apart hs (by simp [hm]) (by simp) he ▸ hm)
      simp [leave, QueueSpinLock.goto, QueueSpinLock.setNode, hne]
    · have hne : m ≠ g := fun he => hnodup.1 (he ▸ List.mem_cons_of_mem _ hm)
      simp [leave, QueueSpinLock.goto, QueueSpinLock.setNode, hne]
    · simp [leave, QueueSpinLock.goto, QueueSpinLock.setNode, hexchanged]
    · simp [leave, QueueSpinLock.goto, QueueSpinLock.setNode, hgranted, front, hkg, hspin]

/-- Between the return of `Acquire` and that of `Release`. -/
def owns {G N : Type} (s : QueueSpinLock G N) (g : G) : Bool :=
  match s.guards g with
  | .critical | .compareExchange | .waitNext | .loadNext | .store _ => true
  | _ => false

theorem Inv.first {G N : Type} {node : G → N} {s : QueueSpinLock G N} (hs : s.Inv node) {g : G}
    (hg : s.owns g = true) : ∃ old rest, s.Line node (g :: rest) ∧
      s.exchanged = old ++ g :: rest ∧ s.granted = old ++ [g] := by
  obtain ⟨old, line, hline, hexchanged, hgranted⟩ := hs.line
  have hspin : s.guards g ≠ .spin := fun he => by simp [owns, he] at hg
  have hlink (p : N) : s.guards g ≠ .link p := fun he => by simp [owns, he] at hg
  have hqueued : (s.guards g).queued = true := by
    unfold owns at hg
    split at hg <;> simp_all [GuardPc.queued]
  obtain ⟨rest, rfl⟩ := hline.eq_cons hqueued hlink fun he => (hspin he).elim
  refine ⟨old, rest, hline, hexchanged, ?_⟩
  have hfront : s.front (g :: rest) = [g] := by simp only [front]
  rw [hgranted, hfront]

/-- The flag has been cleared, and `Acquire` returns. -/
theorem Inv.acquired {G N : Type} [DecidableEq G] {node : G → N} {s : QueueSpinLock G N}
    (hs : s.Inv node) {g : G} (hg : s.guards g = .spin)
    (hflag : (s.nodes (node g)).notChanged = false) :
    ({ s.goto g .critical with granted := s.granted ++ [g] } : QueueSpinLock G N).Inv node := by
  obtain ⟨old, line, hline, hexchanged, hgranted⟩ := hs.line
  obtain ⟨rest, rfl⟩ := hline.eq_cons (g := g) (by rw [hg]; rfl) (by simp [hg]) fun _ => hflag
  have hgoto : (s.goto g .critical).Line node (g :: rest) :=
    hline.goto rfl (by simp [Leads, QueueSpinLock.goto])
  have hstorage : (s.goto g .critical).Storage node := hs.storage.goto (by rw [hg]; rfl) nofun
  refine ⟨⟨hstorage.occupied, hstorage.apart, hstorage.fresh⟩, old, g :: rest,
    ⟨hgoto.nodup, hgoto.mem, hgoto.end_, hgoto.shape.1,
      hgoto.shape.2.congr rfl (fun _ _ => rfl) fun _ _ => rfl⟩, hexchanged, ?_⟩
  simp [hgranted, front, hg, QueueSpinLock.goto]

theorem Inv.guardStep {G N : Type} [DecidableEq G] [DecidableEq N] {node : G → N}
    {s t : QueueSpinLock G N} (hs : s.Inv node) {g : G} (h : s.guardStep node g = some t) :
    t.Inv node := by
  cases hg : s.guards g with
  | uncreated | critical | released => simp [QueueSpinLock.guardStep, hg] at h
  | exchange => exact hs.exchange hg h
  | link prev =>
    simp only [QueueSpinLock.guardStep, hg, Option.some.injEq] at h
    subst h
    exact hs.link hg
  | spin =>
    simp only [QueueSpinLock.guardStep, hg] at h
    split at h
    · simp only [Option.some.injEq] at h
      exact h ▸ hs
    · rename_i hflag
      simp only [Option.some.injEq] at h
      subst h
      exact hs.acquired hg (by simpa using hflag)
  | compareExchange =>
    obtain ⟨old, rest, hline, hexchanged, hgranted⟩ := hs.first (g := g) (by simp [owns, hg])
    simp only [QueueSpinLock.guardStep, hg] at h
    split at h
    · rename_i hend
      simp only [Option.some.injEq] at h
      subst h
      exact Inv.leaveEmpty hs.storage hline hexchanged hgranted hend
    · rename_i hend
      simp only [Option.some.injEq] at h
      subst h
      apply Inv.goto hs.storage hline hexchanged hgranted rfl (by nofun)
      have hrest : rest ≠ [] := by
        rintro rfl
        exact hend hline.end_
      simpa [Leads, QueueSpinLock.goto] using hrest
  | waitNext =>
    obtain ⟨old, rest, hline, hexchanged, hgranted⟩ := hs.first (g := g) (by simp [owns, hg])
    simp only [QueueSpinLock.guardStep, hg] at h
    split at h
    · simp only [Option.some.injEq] at h
      exact h ▸ hs
    · rename_i next hnext
      simp only [Option.some.injEq] at h
      subst h
      apply Inv.goto hs.storage hline hexchanged hgranted rfl (by nofun)
      simp [Leads, QueueSpinLock.goto, hnext]
  | loadNext =>
    obtain ⟨old, rest, hline, hexchanged, hgranted⟩ := hs.first (g := g) (by simp [owns, hg])
    simp only [QueueSpinLock.guardStep, hg] at h
    obtain ⟨next, hnext, rfl⟩ := Option.map_eq_some_iff.mp h
    apply Inv.goto hs.storage hline hexchanged hgranted rfl (by nofun)
    simpa [Leads, QueueSpinLock.goto] using hnext
  | store next =>
    obtain ⟨old, rest, hline, hexchanged, hgranted⟩ := hs.first (g := g) (by simp [owns, hg])
    simp only [QueueSpinLock.guardStep, hg, Option.some.injEq] at h
    subst h
    obtain ⟨-, -, -, -, -, hinv⟩ := Inv.handOver hs.storage hline hexchanged hgranted hg
    exact hinv

theorem Inv.step {G N : Type} [DecidableEq G] [DecidableEq N] {node : G → N}
    {s t : QueueSpinLock G N} (hs : s.Inv node) {l : SpinLockLabel G}
    (h : s.step node l = some t) : t.Inv node := by
  cases l with
  | create g =>
    cases hg : s.guards g <;> simp only [QueueSpinLock.step, hg, reduceCtorEq,
      Option.ite_none_left_eq_some, Option.some.injEq] at h
    obtain ⟨hfree, rfl⟩ := h
    exact hs.create hg (by simpa using hfree)
  | step g => exact hs.guardStep h
  | destroy g =>
    cases hg : s.guards g <;>
      simp only [QueueSpinLock.step, hg, reduceCtorEq, Option.some.injEq] at h
    subst h
    obtain ⟨old, rest, hline, hexchanged, hgranted⟩ := hs.first (g := g) (by simp [owns, hg])
    exact Inv.goto hs.storage hline hexchanged hgranted rfl nofun
      (by simp [Leads, QueueSpinLock.goto])

theorem inv {G N : Type} [DecidableEq G] [DecidableEq N] {node : G → N} {s : QueueSpinLock G N}
    (h : (queueSpinLock node).Reachable s) : s.Inv node := by
  apply h.invariant
  · exact ⟨⟨nofun, nofun, nofun⟩, [], [],
      ⟨List.nodup_nil, fun _ => ⟨nofun, nofun⟩, rfl, trivial⟩, rfl, rfl⟩
  · intro s l t _ hs ht
    exact hs.step ht

/-- A releaser, a guard that links itself to its predecessor, or one that has been
handed the lock and has not yet looked at its flag. -/
def moves {G N : Type} (node : G → N) (s : QueueSpinLock G N) (g : G) : Bool :=
  match s.guards g with
  | .link _ | .compareExchange | .waitNext | .loadNext | .store _ => true
  | .spin => !(s.nodes (node g)).notChanged
  | _ => false

/-- Steps of such guards, and nobody else's, lead to the return of an `Acquire`. -/
inductive HandsOver {G N : Type} [DecidableEq G] [DecidableEq N] (node : G → N) :
    QueueSpinLock G N → Prop where
  | grant {s t : QueueSpinLock G N} {g : G} : s.moves node g = true →
      s.guardStep node g = some t → t.granted = s.granted ++ [g] → HandsOver node s
  | step {s t : QueueSpinLock G N} {g : G} : s.moves node g = true →
      s.guardStep node g = some t → HandsOver node t → HandsOver node s

theorem handsOver_spin {G N : Type} [DecidableEq G] [DecidableEq N] {node : G → N}
    {s : QueueSpinLock G N} {g : G} (hg : s.guards g = .spin)
    (hflag : (s.nodes (node g)).notChanged = false) : HandsOver node s :=
  .grant (g := g) (by simp [moves, hg, hflag]) (by simp [guardStep, hg, hflag]; rfl) rfl

theorem handsOver_store {G N : Type} [DecidableEq G] [DecidableEq N] {node : G → N}
    {s : QueueSpinLock G N} (hs : s.Inv node) {g : G} {next : N}
    (hg : s.guards g = .store next) : HandsOver node s := by
  obtain ⟨old, rest, hline, hexchanged, hgranted⟩ := hs.first (g := g) (by simp [owns, hg])
  obtain ⟨h, -, -, hnode, hspin, -⟩ := Inv.handOver hs.storage hline hexchanged hgranted hg
  subst hnode
  have hne : h ≠ g := by
    rintro rfl
    rw [hg] at hspin
    cases hspin
  refine .step (g := g) (by simp [moves, hg]) (by simp only [QueueSpinLock.guardStep, hg]; rfl)
    (handsOver_spin (g := h) ?_ ?_)
  · simpa [leave, QueueSpinLock.goto, QueueSpinLock.setNode, hne] using hspin
  · simp [leave, QueueSpinLock.goto, QueueSpinLock.setNode]

theorem handsOver_loadNext {G N : Type} [DecidableEq G] [DecidableEq N] {node : G → N}
    {s : QueueSpinLock G N} (hs : s.Inv node) {g : G} (hg : s.guards g = .loadNext) :
    HandsOver node s := by
  obtain ⟨old, rest, hline, -, -⟩ := hs.first (g := g) (by simp [owns, hg])
  have hleads := hline.shape.1
  simp only [Leads, hg] at hleads
  obtain ⟨next, hnext⟩ := Option.ne_none_iff_exists'.mp hleads
  have hstep : s.guardStep node g = some (s.goto g (.store next)) := by
    simp [QueueSpinLock.guardStep, hg, hnext]
  have hstore : (s.goto g (.store next)).guards g = .store next := by simp [QueueSpinLock.goto]
  exact .step (g := g) (by simp [moves, hg]) hstep
    (handsOver_store (hs.guardStep hstep) hstore)

theorem handsOver_linked {G N : Type} [DecidableEq G] [DecidableEq N] {node : G → N}
    {s : QueueSpinLock G N} (hs : s.Inv node) {g : G} (hg : s.guards g = .waitNext)
    (hnext : (s.nodes (node g)).next ≠ none) : HandsOver node s := by
  obtain ⟨next, hnext⟩ := Option.ne_none_iff_exists'.mp hnext
  have hstep : s.guardStep node g = some (s.goto g .loadNext) := by
    simp [QueueSpinLock.guardStep, hg, hnext]
  exact .step (g := g) (by simp [moves, hg]) hstep
    (handsOver_loadNext (hs.guardStep hstep) (g := g) (by simp [QueueSpinLock.goto]))

/-- A releaser may have to wait for its successor to link itself. -/
theorem handsOver_waitNext {G N : Type} [DecidableEq G] [DecidableEq N] {node : G → N}
    {s : QueueSpinLock G N} (hs : s.Inv node) {g : G} (hg : s.guards g = .waitNext) :
    HandsOver node s := by
  obtain ⟨old, rest, hline, -, -⟩ := hs.first (g := g) (by simp [owns, hg])
  obtain ⟨hleads, hfollows⟩ := hline.shape
  simp only [Leads, hg] at hleads
  cases rest with
  | nil => exact (hleads rfl).elim
  | cons h rest =>
    rcases hfollows.2.1 with ⟨hlink, -⟩ | ⟨-, hnext⟩
    · have hstep : s.guardStep node h = some
          ((s.setNode (node g) { s.nodes (node g) with next := some (node h) }).goto h .spin) := by
        simp only [QueueSpinLock.guardStep, hlink]
      have hne : g ≠ h := fun he => (List.nodup_cons.mp hline.nodup).1 (by simp [he])
      refine .step (g := h) (by simp [moves, hlink]) hstep
        (handsOver_linked (hs.guardStep hstep) (g := g) ?_ ?_)
      · simpa [QueueSpinLock.goto, QueueSpinLock.setNode, hne] using hg
      · simp [QueueSpinLock.goto, QueueSpinLock.setNode]
    · exact handsOver_linked hs hg (by simp [hnext])

theorem handsOver_compareExchange {G N : Type} [DecidableEq G] [DecidableEq N] {node : G → N}
    {s : QueueSpinLock G N} (hs : s.Inv node) {g h : G} (hg : s.guards g = .compareExchange)
    (hh : (s.guards h).queued = true) (hne : h ≠ g) : HandsOver node s := by
  obtain ⟨old, rest, hline, -, -⟩ := hs.first (g := g) (by simp [owns, hg])
  have hmem : h ∈ rest := (List.mem_cons.mp ((hline.mem h).mpr hh)).resolve_left hne
  have hend : s.end_ ≠ some (node g) := by
    intro hend
    cases rest with
    | nil => cases hmem
    | cons k rest =>
      obtain ⟨last, hlast⟩ := Option.isSome_iff_exists.mp
        (show (k :: rest).getLast?.isSome = true by simp)
      have hlastmem := List.mem_of_getLast? hlast
      have hnode : node last = node g := by
        have hend_ := hline.end_
        rw [List.getLast?_cons_cons, hlast, hend] at hend_
        exact (Option.some.inj hend_).symm
      have hsame := hline.apart hs.storage (List.mem_cons_of_mem _ hlastmem) (by simp) hnode
      exact (List.nodup_cons.mp hline.nodup).1 (hsame ▸ hlastmem)
  have hstep : s.guardStep node g = some (s.goto g .waitNext) := by
    simp [QueueSpinLock.guardStep, hg, hend]
  exact .step (g := g) (by simp [moves, hg]) hstep
    (handsOver_waitNext (hs.guardStep hstep) (g := g) (by simp [QueueSpinLock.goto]))

theorem Inv.handsOver {G N : Type} [DecidableEq G] [DecidableEq N] {node : G → N}
    {s : QueueSpinLock G N} (hs : s.Inv node) {g : G} (hg : s.guards g = .spin) :
    (∃ h, s.guards h = .critical) ∨ HandsOver node s := by
  obtain ⟨old, line, hline, -, -⟩ := hs.line
  have hmem := (hline.mem g).mpr (by rw [hg]; rfl)
  cases line with
  | nil => cases hmem
  | cons k rest =>
    have hleads := hline.shape.1
    unfold Leads at hleads
    cases hk : s.guards k with
    | critical => exact .inl ⟨k, hk⟩
    | compareExchange =>
      refine .inr (handsOver_compareExchange hs hk (by rw [hg]; rfl) (h := g) ?_)
      rintro rfl
      rw [hg] at hk
      cases hk
    | waitNext => exact .inr (handsOver_waitNext hs hk)
    | loadNext => exact .inr (handsOver_loadNext hs hk)
    | store next => exact .inr (handsOver_store hs hk)
    | spin =>
      simp only [hk] at hleads
      exact .inr (handsOver_spin hk hleads)
    | uncreated | exchange | link _ | released => simp [hk] at hleads

/-- Whoever gets at the node of another guard does so before the `Release` of that
guard returns, and is next to it in the order of the exchanges. -/
structure Safe {G N : Type} [DecidableEq G] [DecidableEq N] (node : G → N)
    (s : QueueSpinLock G N) : Prop where
  exclusive : ∀ g h, s.owns g = true → s.owns h = true → g = h
  fifo : s.granted.IsPrefix s.exchanged
  handsOver : ∀ g, s.guards g = .spin → (∃ h, s.guards h = .critical) ∨ HandsOver node s
  link : ∀ g p, s.guards g = .link p → ∃ h before after, node h = p ∧
    (s.guards h).queued = true ∧ s.exchanged = before ++ h :: g :: after
  store : ∀ g p, s.guards g = .store p → ∃ h before after, node h = p ∧
    s.guards h = .spin ∧ s.exchanged = before ++ g :: h :: after

end QueueSpinLock

theorem queueSpinLock_safe {G N : Type} [DecidableEq G] [DecidableEq N] {node : G → N}
    {s : QueueSpinLock G N} (h : (queueSpinLock node).Reachable s) : s.Safe node := by
  have hs := QueueSpinLock.inv h
  refine ⟨fun g k hg hk => ?_, ?_, fun g hg => hs.handsOver hg, fun g p hg => ?_, fun g p hg => ?_⟩
  · obtain ⟨old, rest, -, -, hgranted⟩ := hs.first hg
    obtain ⟨old', rest', -, -, hgranted'⟩ := hs.first hk
    exact List.singleton_inj.mp (List.append_inj' (hgranted.symm.trans hgranted') rfl).2
  · obtain ⟨old, line, -, hexchanged, hgranted⟩ := hs.line
    rw [hexchanged, hgranted]
    apply (List.prefix_append_right_inj old).mpr
    cases line with
    | nil => exact List.nil_prefix
    | cons g rest => cases hg : s.guards g <;> simp [QueueSpinLock.front, hg]
  · obtain ⟨old, line, hline, hexchanged, -⟩ := hs.line
    have hmem := (hline.mem g).mpr (by rw [hg]; rfl)
    cases line with
    | nil => cases hmem
    | cons k rest =>
      obtain ⟨hleads, hfollows⟩ := hline.shape
      have hk : g ≠ k := by
        rintro rfl
        simp [QueueSpinLock.Leads, hg] at hleads
      obtain ⟨q, xs, ys, hsplit, hq, -, -⟩ := hfollows.link hline.nodup
        (fun a ha b hb => hline.apart hs.storage ha hb) ((List.mem_cons.mp hmem).resolve_left hk) hg
      exact ⟨q, old ++ xs, ys, hq, (hline.mem q).mp (by simp [hsplit]),
        by rw [hexchanged, hsplit, List.append_assoc]⟩
  · obtain ⟨old, rest, hline, hexchanged, hgranted⟩ := hs.first (g := g) (by simp [QueueSpinLock.owns, hg])
    obtain ⟨k, rest', rfl, hnode, hspin, -⟩ :=
      QueueSpinLock.Inv.handOver hs.storage hline hexchanged hgranted hg
    exact ⟨k, old, rest', hnode, hspin, hexchanged⟩

/-- A third guard, at the address of the first, while the second is being linked. -/
theorem queueSpinLock_safe_reuse :
    ∃ s, (queueSpinLock (G := Fin 3) (N := Bool) fun g => g == 1).Reachable s ∧
      s.guards 0 = .released ∧ s.guards 2 = .link true ∧ s.Safe fun g => g == 1 := by
  have h : (queueSpinLock (G := Fin 3) (N := Bool) fun g => g == 1).Reachable _ :=
    Machine.reachable_of_exec [.create 0, .step 0, .create 1, .step 1, .destroy 0, .step 0,
      .step 1, .step 0, .step 0, .step 0, .create 2, .step 2] rfl
  exact ⟨_, h, rfl, rfl, queueSpinLock_safe h⟩

/-- The flag is cleared, `Release` has returned, and the next guard, the only one
left, has not yet seen it. -/
theorem queueSpinLock_handed_over :
    ∃ s, (queueSpinLock (G := Fin 2) (N := Fin 2) id).Reachable s ∧ s.guards 1 = .spin ∧
      s.guards 0 = .released ∧ ∀ g, s.owns g = false ∧ ∀ p, s.guards g ≠ .link p := by
  have h : (queueSpinLock (G := Fin 2) (N := Fin 2) id).Reachable _ :=
    Machine.reachable_of_exec [.create 0, .step 0, .create 1, .step 1, .step 1, .destroy 0,
      .step 0, .step 0, .step 0, .step 0] rfl
  refine ⟨_, h, rfl, rfl, ?_⟩
  decide

end ConcurrentProgramming.Sync

import NetworksLab.Core.SwapPop
import NetworksLab.L5Concurrency.ProxyCache

/-!
# Sessions and `Sessions_` (`individual/lib/Server.cpp`, `Session.cpp`)

A session lives in the list `Sessions_` until its `EndCallback` erases it. The
handlers of its asynchronous operations have a bare `this`, so nothing stops one
of them from being run for a session that is gone.

**World.** The list, the operations that `io_context` has under way or whose
result is queued, and the wait for a signal. A step is a result that comes in, or
one handler; they come in any order. A session is named by a number that no other
one gets, so a use of one that is gone shows. A handler that misuses a session or
the list ends the run with a `Fault`, and so does an exception.

Results:
* `inv_reachable`: every operation belongs to a session in the list, and no
  session has two.
* `misused_iff`: a handler misuses a session or the list exactly when it is the
  one of the signal and a session is left.
* `refines`: what the sessions do is a run of `ProxyCache.lts`.
-/
namespace NetworksLab.L5.ProxyLifecycle
open NetworksLab.L4.Database
open NetworksLab.L4.Session

/-! ## The server -/

/-- What an operation ends with. -/
inductive Result where
  | success
  | error
  /-- `operation_aborted` -/
  | aborted
  deriving DecidableEq, Repr

inductive Fault where
  /-- a handler calls `Stop` of a session that has been erased, or reads a member -/
  | gone (id : Nat)
  /-- `Sessions_.erase` of a node that has been erased -/
  | erasedTwice (id : Nat)
  /-- the loop goes on from a node that has been erased -/
  | advanced (id : Nat)
  /-- an exception leaves the handler, and `io_context::run` -/
  | exception
  deriving DecidableEq, Repr

/-- A node of `Sessions_`; `EndCallback_` has an iterator to erase. -/
structure Node where
  id : Nat
  session : TSession
  endCallback : Option Nat

/-- An asynchronous operation of the session `id`, until its handler is called;
`result` is there once it is queued. -/
structure Operation where
  id : Nat
  kind : Pending
  result : Option Result
  deriving DecidableEq, Repr

/-- mirrors individual/lib/Server.cpp:88-93 -/
structure TImpl where
  operations : List Operation
  /-- the wait for a signal is on -/
  signals : Bool
  /-- `Acceptor_.is_open()` -/
  acceptor : Bool
  /-- an `async_accept` is on -/
  accepting : Bool
  sessions : List Node
  database : TDatabase
  /-- the number of the next session -/
  next : Nat
  /-- ghost: the sessions whose `EndCallback` has run -/
  ended : List Nat

/-- Behind `AsyncAccept()` in `Run`.
mirrors individual/lib/Server.cpp:46-60 -/
def TImpl.init : TImpl := ⟨[], true, true, true, [], .make, 0, []⟩

/-- `this` of a handler, or a reference to the session. -/
def TImpl.session (s : TImpl) (id : Nat) : Except Fault Node :=
  match s.sessions.find? (fun n => n.id = id) with
  | some n => return n
  | none => throw (.gone id)

/-- Closing the sockets of a session aborts what is under way on them, unless its
result is queued. -/
def TImpl.close (s : TImpl) (id : Nat) : TImpl :=
  { s with operations := s.operations.map fun o =>
      if o.id = id ∧ o.result = none then { o with result := some .aborted } else o }

/-- mirrors individual/lib/Server.cpp:81-83 -/
def TImpl.erase (s : TImpl) (it : Nat) : Except Fault TImpl :=
  if s.sessions.any (fun n => n.id = it) then
    return { s with
      sessions := s.sessions.filter fun n => n.id ≠ it
      ended := s.ended ++ [it] }
  else throw (.erasedTwice it)

/-- mirrors individual/lib/Session.cpp:28-34 -/
def TImpl.stop (s : TImpl) (id : Nat) : Except Fault TImpl := do
  let n ← s.session id
  let s := s.close id
  match n.endCallback with
  | some it => s.erase it
  | none => return s

/-- The session goes on with its next operation. -/
def TImpl.resume (s : TImpl) (id : Nat) (session : TSession) (db : TDatabase) : TImpl :=
  { s with
    sessions := s.sessions.map fun n => if n.id = id then { n with session := session } else n
    operations := s.operations ++ [⟨id, session.pending, none⟩]
    database := db }

/-! ## Handlers -/

/-- What a handler finds: the clock, the bytes that were read, and whether
`resolve` and `connect`, or `shutdown`, do not throw. -/
structure Input where
  now : Int
  buffer : Bytes
  succeeds : Bool

section
variable (gzip : Bytes → Bytes)

/-- What a handler does with the session when its operation was a success, up to
the start of the next one.
mirrors individual/lib/Session.cpp:46-55, 122-138, 149-169 -/
def callback (x : Input) (session : TSession) (db : TDatabase) :
    Pending → Except Fault (TSession × TDatabase)
  | .readClient =>
    match readClient gzip session db x.now x.buffer with
    | .error _ => throw .exception
    | .ok r => if r.1.pending = .writeForeign ∧ x.succeeds = false then throw .exception else return r
  | .writeForeign => return (session.requestWritten, db)
  | .readForeign =>
    match readForeign gzip session db x.now x.buffer with
    | .error _ => throw .exception
    | .ok r => if r.1.pending = .writeClient ∧ x.succeeds = false then throw .exception else return r
  | .writeClient => return (session, db)

/-- The handlers of `ReadClient`, `WriteForeign` and `ReadForeign`: their tests of
the error code are the same.
mirrors individual/lib/Session.cpp:39-56, 129-137, 143-170 -/
def handleRead (s : TImpl) (o : Operation) (x : Input) : Result → Except Fault TImpl
  | .error => s.stop o.id
  | .aborted => return s
  | .success => do
    let n ← s.session o.id
    let (session, db) ← callback gzip x n.session s.database o.kind
    return s.resume o.id session db

/-- The handler of `WriteClient`.
mirrors individual/lib/Session.cpp:178-183 -/
def handleWriteClient (s : TImpl) (o : Operation) (x : Input) : Result → Except Fault TImpl
  | .success => do
    let _ ← s.session o.id
    if x.succeeds = false then throw .exception else s.stop o.id
  | _ => s.stop o.id

def handle (s : TImpl) (o : Operation) (x : Input) (r : Result) : Except Fault TImpl :=
  if o.kind = .writeClient then handleWriteClient s o x r else handleRead gzip s o x r

end

/-- mirrors individual/lib/Server.cpp:78-86 -/
def TImpl.serve (s : TImpl) : TImpl :=
  { s with
    sessions := s.sessions ++ [⟨s.next, .make, some s.next⟩]
    operations := s.operations ++ [⟨s.next, TSession.make.pending, none⟩]
    next := s.next + 1 }

/-- The handler of `async_accept`; `ec` says that there was an error.
mirrors individual/lib/Server.cpp:64-76 -/
def TImpl.accept (s : TImpl) (ec : Bool) : TImpl :=
  if s.acceptor = false then { s with accepting := false }
  else if ec then s
  else s.serve

/-- The loop over the sessions from a node on, and then `clear`.
mirrors individual/lib/Server.cpp:50-53 -/
def stopAll : List Node → TImpl → Except Fault TImpl
  | [], s => return { s.sessions.foldl (fun s n => s.close n.id) s with sessions := [] }
  | n :: ns, s => do
    let s ← s.stop n.id
    if s.sessions.any (fun m => m.id = n.id) then stopAll ns s else throw (.advanced n.id)

/-- mirrors individual/lib/Server.cpp:48-54 -/
def TImpl.onSignal (s : TImpl) : Except Fault TImpl :=
  stopAll s.sessions { s with signals := false, acceptor := false }

/-! ## Runs -/

inductive Label where
  /-- the operation at a place of `operations` has a result -/
  | complete (i : Nat) (r : Result)
  /-- its handler is called -/
  | handle (i : Nat) (x : Input)
  | accept (ec : Bool)
  | signal

/-- `none`: there is no such handler to call. -/
def run (gzip : Bytes → Bytes) (s : TImpl) : Label → Option (Except Fault TImpl)
  | .complete i r =>
    match s.operations[i]? with
    | some o =>
      if o.result = none then
        some (.ok { s with operations := s.operations.set i { o with result := some r } })
      else none
    | none => none
  | .handle i x =>
    match s.operations[i]? with
    | some o => o.result.map (handle gzip { s with operations := s.operations.eraseIdx i } o x)
    | none => none
  | .accept ec => if s.accepting then some (.ok (s.accept ec)) else none
  | .signal => if s.signals then some s.onSignal else none

def server (gzip : Bytes → Bytes) : LTS TImpl Label where
  init := (· = .init)
  step s l s' := run gzip s l = some (.ok s')

/-! ## The invariant -/

def TImpl.ids (s : TImpl) : List Nat := s.sessions.map (·.id)

/-- Whose operations `io_context` has. -/
def TImpl.owners (s : TImpl) : List Nat := s.operations.map (·.id)

structure Inv (s : TImpl) : Prop where
  ids : s.ids.Nodup
  callback : ∀ n ∈ s.sessions, n.endCallback = some n.id
  /-- no session has two operations -/
  once : s.owners.Nodup
  /-- no operation outlives its session -/
  live : ∀ id ∈ s.owners, id ∈ s.ids
  fresh : ∀ id ∈ s.ids, id < s.next
  ended : s.ended.Nodup
  gone : ∀ id ∈ s.ended, id < s.next ∧ id ∉ s.ids

theorem inv_init : Inv .init where
  ids := List.nodup_nil
  callback := by simp [TImpl.init]
  once := List.nodup_nil
  live := by simp [TImpl.owners, TImpl.init]
  fresh := by simp [TImpl.ids, TImpl.init]
  ended := List.nodup_nil
  gone := by simp [TImpl.init]

section
variable {s : TImpl} {id : Nat}

/-- The acceptor, the signals and the results of operations do not matter. -/
theorem Inv.of_eq {s' : TImpl} (hi : Inv s) (hs : s'.sessions = s.sessions) (ho : s'.owners = s.owners)
    (hn : s'.next = s.next) (he : s'.ended = s.ended) : Inv s' := by
  have hids : s'.ids = s.ids := by rw [TImpl.ids, hs]; rfl
  refine ⟨hids ▸ hi.ids, hs ▸ hi.callback, ho ▸ hi.once, ?_, ?_, he ▸ hi.ended, ?_⟩
  · rw [ho, hids]; exact hi.live
  · rw [hids, hn]; exact hi.fresh
  · rw [he, hids, hn]; exact hi.gone

theorem session_ok (h : id ∈ s.ids) : ∃ n ∈ s.sessions, n.id = id ∧ s.session id = .ok n := by
  obtain ⟨m, hm, hid⟩ := List.mem_map.mp h
  obtain ⟨n, hn⟩ := Option.isSome_iff_exists.mp
    (List.find?_isSome (p := fun n : Node => n.id = id).mpr ⟨m, hm, by simpa using hid⟩)
  refine ⟨n, List.mem_of_find?_eq_some hn, by simpa using List.find?_some hn, ?_⟩
  simp only [TImpl.session, hn]
  rfl

/-- The list behind the end of a session. -/
def TImpl.without (s : TImpl) (id : Nat) : TImpl :=
  { s with sessions := s.sessions.filter fun n => n.id ≠ id, ended := s.ended ++ [id] }

theorem mem_ids_without {j : Nat} : j ∈ (s.without id).ids ↔ j ∈ s.ids ∧ j ≠ id := by
  simp only [TImpl.ids, TImpl.without, List.mem_map, List.mem_filter, decide_eq_true_eq]
  constructor
  · rintro ⟨n, ⟨hn, hne⟩, rfl⟩
    exact ⟨⟨n, hn, rfl⟩, hne⟩
  · rintro ⟨⟨n, hn, rfl⟩, hne⟩
    exact ⟨n, ⟨hn, hne⟩, rfl⟩

theorem stop_ok (hi : Inv s) (h : id ∈ s.ids) : s.stop id = .ok ((s.close id).without id) := by
  obtain ⟨n, hn, rfl, hs⟩ := session_ok h
  have hany : (s.close n.id).sessions.any (fun m => m.id = n.id) = true :=
    List.any_eq_true.mpr ⟨n, hn, by simp⟩
  rw [TImpl.stop, ok_bind hs]
  simp only [hi.callback n hn, TImpl.erase, if_pos hany]
  rfl

/-- A session whose operation has just ended has nothing to abort. -/
theorem close_eq (h : id ∉ s.owners) : s.close id = s := by
  have hmap : (s.operations.map fun o =>
      if o.id = id ∧ o.result = none then { o with result := some .aborted } else o) = s.operations := by
    conv_rhs => rw [← List.map_id s.operations]
    refine List.map_congr_left fun o ho => ?_
    exact if_neg fun hc : o.id = id ∧ _ => h (hc.1 ▸ List.mem_map_of_mem ho)
  unfold TImpl.close
  rw [hmap]

/-- A session ends when it has no operation. -/
theorem Inv.without (hi : Inv s) (h : id ∈ s.ids) (ho : id ∉ s.owners) : Inv (s.without id) where
  ids := (List.Sublist.map _ List.filter_sublist).nodup hi.ids
  callback n hn := hi.callback n (List.mem_of_mem_filter hn)
  once := hi.once
  live j hj := mem_ids_without.mpr ⟨hi.live j hj, fun he => ho (he ▸ hj)⟩
  fresh j hj := hi.fresh j (mem_ids_without.mp hj).1
  ended := by
    refine List.nodup_append.mpr ⟨hi.ended, List.nodup_singleton id, ?_⟩
    rintro j hj k hk rfl
    obtain rfl := List.mem_singleton.mp hk
    exact (hi.gone j hj).2 h
  gone j hj := by
    rcases List.mem_append.mp hj with hj | hj
    · exact ⟨(hi.gone j hj).1, fun hm => (hi.gone j hj).2 (mem_ids_without.mp hm).1⟩
    · obtain rfl := List.mem_singleton.mp hj
      exact ⟨hi.fresh j h, fun hm => (mem_ids_without.mp hm).2 rfl⟩

theorem ids_resume (session : TSession) (db : TDatabase) : (s.resume id session db).ids = s.ids := by
  simp only [TImpl.ids, TImpl.resume, List.map_map]
  apply List.map_congr_left
  intro n _
  simp only [Function.comp_apply]
  split <;> rfl

theorem owners_resume (session : TSession) (db : TDatabase) :
    (s.resume id session db).owners = s.owners ++ [id] := by
  simp [TImpl.owners, TImpl.resume]

theorem Inv.resume (hi : Inv s) (h : id ∈ s.ids) (ho : id ∉ s.owners) (session : TSession)
    (db : TDatabase) : Inv (s.resume id session db) where
  ids := by rw [ids_resume]; exact hi.ids
  callback n hn := by
    obtain ⟨m, hm, rfl⟩ := List.mem_map.mp hn
    have := hi.callback m hm
    split <;> exact this
  once := by
    rw [owners_resume]
    refine List.nodup_append.mpr ⟨hi.once, List.nodup_singleton id, ?_⟩
    rintro j hj k hk rfl
    exact ho (List.mem_singleton.mp hk ▸ hj)
  live j hj := by
    rw [owners_resume] at hj
    rw [ids_resume]
    rcases List.mem_append.mp hj with hj | hj
    · exact hi.live j hj
    · exact List.mem_singleton.mp hj ▸ h
  fresh j hj := by
    rw [ids_resume] at hj
    exact hi.fresh j hj
  ended := hi.ended
  gone j hj := by
    rw [ids_resume]
    exact hi.gone j hj

theorem Inv.serve (hi : Inv s) : Inv s.serve := by
  have hids : s.serve.ids = s.ids ++ [s.next] := by simp [TImpl.ids, TImpl.serve]
  have howners : s.serve.owners = s.owners ++ [s.next] := by simp [TImpl.owners, TImpl.serve]
  have hnew : s.next ∉ s.ids := fun h => Nat.lt_irrefl _ (hi.fresh _ h)
  have happ {l : List Nat} (hl : l.Nodup) (hn : s.next ∉ l) : (l ++ [s.next]).Nodup := by
    refine List.nodup_append.mpr ⟨hl, List.nodup_singleton _, ?_⟩
    rintro j hj k hk rfl
    exact hn (List.mem_singleton.mp hk ▸ hj)
  refine ⟨?_, ?_, ?_, ?_, ?_, hi.ended, ?_⟩
  · rw [hids]
    exact happ hi.ids hnew
  · intro n hn
    rcases List.mem_append.mp hn with hn | hn
    · exact hi.callback n hn
    · obtain rfl := List.mem_singleton.mp hn
      rfl
  · rw [howners]
    exact happ hi.once fun h => hnew (hi.live _ h)
  · intro j hj
    rw [howners] at hj
    rw [hids]
    exact List.mem_append.mpr ((List.mem_append.mp hj).imp_left (hi.live j))
  · intro j hj
    rw [hids] at hj
    rcases List.mem_append.mp hj with hj | hj
    · exact Nat.lt_succ_of_lt (hi.fresh j hj)
    · exact List.mem_singleton.mp hj ▸ Nat.lt_succ_self _
  · intro j hj
    obtain ⟨hlt, hn⟩ := hi.gone j hj
    refine ⟨Nat.lt_succ_of_lt hlt, ?_⟩
    rw [hids, List.mem_append, not_or]
    exact ⟨hn, fun h => Nat.ne_of_lt hlt (List.mem_singleton.mp h)⟩

end

/-! ## One handler -/

section
variable {gzip : Bytes → Bytes} {s : TImpl}

theorem callback_error {x : Input} {session : TSession} {db : TDatabase} {kind : Pending} {f : Fault}
    (h : callback gzip x session db kind = .error f) : f = .exception := by
  cases kind <;> simp only [callback] at h
  · split at h
    · cases h; rfl
    · split at h <;> cases h
      rfl
  · cases h
  · split at h
    · cases h; rfl
    · split at h <;> cases h
      rfl
  · cases h

/-- The handler of an operation that has been taken from `io_context`, while its
session is in the list. -/
theorem handle_inv {o : Operation} (hi : Inv s) (h : o.id ∈ s.ids) (ho : o.id ∉ s.owners) (x : Input)
    (r : Result) : (∃ s', handle gzip s o x r = .ok s' ∧ Inv s') ∨
      handle gzip s o x r = .error .exception := by
  obtain ⟨n, -, -, hs⟩ := session_ok h
  have hstop : s.stop o.id = .ok (s.without o.id) := by rw [stop_ok hi h, close_eq ho]
  have hend : ∃ s', s.stop o.id = .ok s' ∧ Inv s' := ⟨_, hstop, hi.without h ho⟩
  unfold handle
  split
  · cases r with
    | success =>
      rw [handleWriteClient, ok_bind hs]
      split
      · exact .inr rfl
      · exact .inl hend
    | error => exact .inl hend
    | aborted => exact .inl hend
  · cases r with
    | success =>
      rw [handleRead, ok_bind hs]
      cases hc : callback gzip x n.session s.database o.kind with
      | error f =>
        right
        rw [callback_error hc]
        rfl
      | ok y => exact .inl ⟨_, rfl, hi.resume h ho y.1 y.2⟩
    | error => exact .inl hend
    | aborted => exact .inl ⟨s, rfl, hi⟩

/-- A handler takes its operation away. -/
theorem Inv.take (hi : Inv s) {i : Nat} {o : Operation} (ho : s.operations[i]? = some o) :
    Inv { s with operations := s.operations.eraseIdx i } ∧ o.id ∈ s.ids ∧
      o.id ∉ (s.operations.eraseIdx i).map (·.id) := by
  have hsub : ((s.operations.eraseIdx i).map (·.id)).Sublist s.owners :=
    (List.eraseIdx_sublist _ _).map _
  have hmem : o.id ∈ s.owners := List.mem_map_of_mem (List.mem_of_getElem? ho)
  refine ⟨⟨hi.ids, hi.callback, hsub.nodup hi.once, fun j hj => hi.live j (hsub.subset hj), hi.fresh,
    hi.ended, hi.gone⟩, hi.live _ hmem, fun hm => ?_⟩
  obtain ⟨p, hp, hid⟩ := List.mem_map.mp hm
  obtain ⟨j, hne, hj⟩ := List.mem_eraseIdx_iff_getElem?.mp hp
  have hi' : s.owners[i]? = some o.id := by rw [TImpl.owners, List.getElem?_map, ho]; rfl
  have hj' : s.owners[j]? = some o.id := by rw [TImpl.owners, List.getElem?_map, hj, ← hid]; rfl
  have hlt : j < s.owners.length := (List.getElem?_eq_some_iff.mp hj').1
  exact hne ((List.getElem?_inj hlt hi.once).mp (hj'.trans hi'.symm))

/-- The first `Stop` of the loop erases the node that the loop stands on. -/
theorem stopAll_cons (hi : Inv s) {n : Node} (hn : n.id ∈ s.ids) (ns : List Node) :
    stopAll (n :: ns) s = .error (.advanced n.id) := by
  have hnone : ((s.close n.id).without n.id).sessions.any (fun m => m.id = n.id) = false := by
    simp [TImpl.without]
  rw [stopAll, ok_bind (stop_ok hi hn)]
  simp only [hnone]
  rfl

/-- The handler of the signal when a session is left. -/
theorem onSignal_fault (hi : Inv s) {n : Node} {ns : List Node} (hs : s.sessions = n :: ns) :
    s.onSignal = .error (.advanced n.id) := by
  have hi' : Inv { s with signals := false, acceptor := false } := hi.of_eq rfl rfl rfl rfl
  have hn : n.id ∈ s.ids := List.mem_map_of_mem (hs ▸ List.mem_cons_self)
  have hloop := stopAll_cons hi' hn ns
  rwa [← hs] at hloop

theorem onSignal_empty (hs : s.sessions = []) :
    s.onSignal = .ok { s with signals := false, acceptor := false } := by
  simp only [TImpl.onSignal, hs]
  rfl

/-- Step lemma: what a label does. -/
theorem run_cases (hi : Inv s) {l : Label} {y : Except Fault TImpl} (h : run gzip s l = some y) :
    (∃ s', y = .ok s' ∧ Inv s') ∨ y = .error .exception ∨
      l = .signal ∧ s.signals = true ∧ ∃ n ns, s.sessions = n :: ns ∧ y = .error (.advanced n.id) := by
  cases l with
  | complete i r =>
    simp only [run] at h
    split at h
    · rename_i o ho
      split at h
      · cases h
        refine .inl ⟨_, rfl, ?_⟩
        have howners : (s.operations.set i { o with result := some r }).map (·.id) = s.owners :=
          map_set_of_eq ho rfl
        exact hi.of_eq rfl howners rfl rfl
      · cases h
    · cases h
  | handle i x =>
    simp only [run] at h
    split at h
    · rename_i o ho
      obtain ⟨r, -, rfl⟩ := Option.map_eq_some_iff.mp h
      obtain ⟨hi', hid, hown⟩ := hi.take ho
      exact (handle_inv hi' hid hown x r).imp_right .inl
    · cases h
  | accept ec =>
    simp only [run] at h
    split at h
    · cases h
      refine .inl ⟨_, rfl, ?_⟩
      unfold TImpl.accept
      split
      · exact hi.of_eq rfl rfl rfl rfl
      · split
        · exact hi
        · exact hi.serve
    · cases h
  | signal =>
    simp only [run] at h
    split at h
    · rename_i hsig
      cases h
      cases hs : s.sessions with
      | nil =>
        rw [onSignal_empty hs]
        exact .inl ⟨_, rfl, hi.of_eq rfl rfl rfl rfl⟩
      | cons n ns => exact .inr (.inr ⟨rfl, hsig, n, ns, rfl, onSignal_fault hi hs⟩)
    · cases h

end

theorem inv_reachable {gzip : Bytes → Bytes} {s : TImpl} (h : (server gzip).Reachable s) : Inv s := by
  have hI : (server gzip).Inductive Inv :=
    { init := fun s hs => hs ▸ inv_init
      step := fun s l s' hi hs => by
        rcases run_cases hi hs with ⟨t, ht, hi'⟩ | ht | ⟨-, -, n, ns, -, ht⟩
        · cases ht
          exact hi'
        · cases ht
        · cases ht }
  exact hI.reachable s h

/-- A handler calls `Stop` of a session that is gone, reads a member of it, erases
it again, or goes on from its node. -/
def Misused (gzip : Bytes → Bytes) (s : TImpl) (l : Label) : Prop :=
  ∃ f, run gzip s l = some (.error f) ∧ f ≠ .exception

/-- **Lifecycle.** In every reachable state no session's `EndCallback` has run
twice, and the next handler misuses a session or the list if and only if it is the
one of the signal, and a session is left. -/
theorem misused_iff (gzip : Bytes → Bytes) {s : TImpl} (h : (server gzip).Reachable s) :
    s.ended.Nodup ∧ ∀ l, Misused gzip s l ↔ l = .signal ∧ s.signals = true ∧ s.sessions ≠ [] := by
  have hi := inv_reachable h
  refine ⟨hi.ended, fun l => ⟨?_, ?_⟩⟩
  · rintro ⟨f, hrun, hf⟩
    rcases run_cases hi hrun with ⟨t, ht, -⟩ | ht | ⟨hl, hsig, n, ns, hs, -⟩
    · cases ht
    · cases ht
      exact absurd rfl hf
    · exact ⟨hl, hsig, by rw [hs]; exact List.cons_ne_nil n ns⟩
  · rintro ⟨rfl, hsig, hne⟩
    obtain ⟨n, ns, hs⟩ := List.exists_cons_of_ne_nil hne
    refine ⟨.advanced n.id, ?_, nofun⟩
    simp only [run, hsig, if_true, onSignal_fault hi hs]

/-- No session is ended twice, or used when it is gone, in any run. -/
def Disciplined (gzip : Bytes → Bytes) : Prop :=
  ∀ s, (server gzip).Reachable s → s.ended.Nodup ∧ ∀ l, ¬ Misused gzip s l

theorem served_reachable (gzip : Bytes → Bytes) : (server gzip).Reachable TImpl.init.serve := by
  have hs : (server gzip).step .init (.accept false) TImpl.init.serve := rfl
  exact (LTS.Reachable.of_init rfl).next hs

/-- A signal while the request of the only client is being read. -/
theorem signal_misuses : ¬ Disciplined id := by
  intro h
  obtain ⟨-, hnone⟩ := h _ (served_reachable id)
  exact hnone .signal ⟨.advanced 0, rfl, nofun⟩

/-- Only the signal does that, of all handlers that may come. -/
theorem misused_iff_served : TImpl.init.serve.ended.Nodup ∧ ∀ l, Misused id TImpl.init.serve l ↔ l = .signal := by
  obtain ⟨hended, hmisused⟩ := misused_iff id (served_reachable id)
  exact ⟨hended, fun l => (hmisused l).trans ⟨And.left, fun hl => ⟨hl, rfl, List.cons_ne_nil _ _⟩⟩⟩

/-! ## What the sessions do -/

def TImpl.lookup (s : TImpl) (id : Nat) : Option TSession :=
  (s.sessions.find? fun n => n.id = id).map (·.session)

/-- The proxy of `ProxyCache` has these sessions, and each one's operation is the
one it waits for. -/
structure Matches (s : TImpl) (st : ProxyCache.Proxy) : Prop where
  database : st.database = s.database
  clients : ∀ id, (st.clients id).map (·.session) = s.lookup id
  kinds : ∀ o ∈ s.operations, ∀ session, s.lookup o.id = some session → session.pending = o.kind

section
variable {gzip : Bytes → Bytes} {s : TImpl} {st : ProxyCache.Proxy}

theorem lookup_of_session {id : Nat} {n : Node} (h : s.session id = .ok n) :
    s.lookup id = some n.session := by
  unfold TImpl.session at h
  split at h
  · rename_i m hm
    cases h
    rw [TImpl.lookup, hm]
    rfl
  · cases h

theorem lookup_without (s : TImpl) (id : Nat) :
    (s.without id).lookup = Function.update s.lookup id none := by
  funext j
  simp only [TImpl.lookup, TImpl.without, List.find?_filter]
  by_cases hj : j = id
  · subst hj
    rw [Function.update_self, List.find?_eq_none.mpr (by simp)]
    rfl
  · rw [Function.update_of_ne hj]
    congr 2
    funext n
    by_cases hn : n.id = j
    · simp [hn, hj]
    · simp [hn]

theorem lookup_resume (s : TImpl) {id : Nat} (h : (s.lookup id).isSome) (session : TSession)
    (db : TDatabase) : (s.resume id session db).lookup = Function.update s.lookup id (some session) := by
  funext j
  have hfind : (s.resume id session db).sessions.find? (fun n => n.id = j) =
      (s.sessions.find? fun n => n.id = j).map
        fun n => if n.id = id then { n with session := session } else n := by
    simp only [TImpl.resume, List.find?_map]
    congr 2
    funext n
    simp only [Function.comp_apply]
    split <;> rfl
  rw [TImpl.lookup, hfind]
  by_cases hj : j = id
  · subst hj
    rw [Function.update_self]
    obtain ⟨n, hn⟩ := Option.isSome_iff_exists.mp (Option.isSome_map ▸ h)
    have hid : n.id = j := by simpa using List.find?_some hn
    rw [hn, Option.map_some, Option.map_some, if_pos hid]
  · rw [Function.update_of_ne hj, TImpl.lookup, Option.map_map]
    cases hn : s.sessions.find? fun n => n.id = j with
    | none => rfl
    | some n =>
      have hid : n.id = j := by simpa using List.find?_some hn
      simp only [Option.map_some, Function.comp_apply, if_neg (show ¬ n.id = id from hid ▸ hj)]

theorem find_next (hi : Inv s) : s.sessions.find? (fun n => n.id = s.next) = none := by
  rw [List.find?_eq_none]
  intro n hn hid
  exact Nat.lt_irrefl _ (hi.fresh _ (of_decide_eq_true hid ▸ List.mem_map_of_mem hn))

theorem lookup_serve (hi : Inv s) :
    s.serve.lookup = Function.update s.lookup s.next (some .make) := by
  funext j
  simp only [TImpl.lookup, TImpl.serve, List.find?_append]
  by_cases hj : j = s.next
  · subst hj
    rw [Function.update_self, find_next hi]
    simp
  · rw [Function.update_of_ne hj]
    have hnone : [(⟨s.next, .make, some s.next⟩ : Node)].find? (fun n => n.id = j) = none := by
      simp [Ne.symm hj]
    rw [hnone, Option.or_none]
    rfl

/-- One session has changed on both sides; another one's operation stays. -/
theorem Matches.update (hm : Matches s st) {s' : TImpl} {st' : ProxyCache.Proxy} {id : Nat}
    {c : Option ProxyCache.Client} (hdb : st'.database = s'.database)
    (hc : st'.clients = Function.update st.clients id c)
    (hl : s'.lookup = Function.update s.lookup id (c.map (·.session)))
    (ho : ∀ o ∈ s'.operations, o.id = id ∧ (∀ session, c.map (·.session) = some session →
      session.pending = o.kind) ∨ o.id ≠ id ∧ o ∈ s.operations) : Matches s' st' := by
  refine ⟨hdb, fun j => ?_, fun o hmem session hsession => ?_⟩
  · rw [hc, hl]
    by_cases hj : j = id
    · subst hj
      rw [Function.update_self, Function.update_self]
    · rw [Function.update_of_ne hj, Function.update_of_ne hj]
      exact hm.clients j
  · rw [hl] at hsession
    rcases ho o hmem with ⟨rfl, hkind⟩ | ⟨hne, hold⟩
    · rw [Function.update_self] at hsession
      exact hkind session hsession
    · rw [Function.update_of_ne hne] at hsession
      exact hm.kinds o hold session hsession

/-- Nothing that matters has changed. -/
theorem Matches.same (hm : Matches s st) {s' : TImpl} (hs : s'.sessions = s.sessions)
    (hdb : s'.database = s.database)
    (ho : ∀ o ∈ s'.operations, ∃ p ∈ s.operations, p.id = o.id ∧ p.kind = o.kind) : Matches s' st := by
  have hl : s'.lookup = s.lookup := by
    funext j
    rw [TImpl.lookup, hs, TImpl.lookup]
  refine ⟨hm.database.trans hdb.symm, fun j => by rw [hl]; exact hm.clients j, fun o hmem session h => ?_⟩
  obtain ⟨p, hp, hid, hkind⟩ := ho o hmem
  rw [hl, ← hid] at h
  rw [← hkind]
  exact hm.kinds p hp session h

theorem stop_matches (hi : Inv s) (hm : Matches s st) {id : Nat} (h : id ∈ s.ids) (ho : id ∉ s.owners)
    {s' : TImpl} (hs : s.stop id = .ok s') :
    ∃ st', (ProxyCache.lts gzip).Reach st st' ∧ Matches s' st' := by
  rw [stop_ok hi h, close_eq ho] at hs
  cases hs
  refine ⟨st.set id none, .tail (.refl st) .stop, ?_⟩
  refine hm.update hm.database rfl (lookup_without s id) fun o hmem => .inr ⟨fun he => ?_, hmem⟩
  exact ho (he ▸ List.mem_map_of_mem hmem)

theorem resume_matches (hm : Matches s st) {id : Nat} (ho : id ∉ s.owners) {session : TSession}
    {db : TDatabase} {received : Bytes} {st' : ProxyCache.Proxy} (hl : (s.lookup id).isSome)
    (hdb : st'.database = db) (hc : st'.clients = Function.update st.clients id (some ⟨session, received⟩)) :
    Matches (s.resume id session db) st' := by
  refine hm.update hdb hc (lookup_resume s hl session db) fun o hmem => ?_
  rcases List.mem_append.mp hmem with hmem | hmem
  · exact .inr ⟨fun he => ho (he ▸ List.mem_map_of_mem hmem), hmem⟩
  · obtain rfl := List.mem_singleton.mp hmem
    exact .inl ⟨rfl, fun t ht => by cases ht; rfl⟩

/-- A success takes the session one callback on. -/
theorem success_matches (hm : Matches s st) {o : Operation} (ho : o.id ∉ s.owners) {n : Node}
    (hn : s.session o.id = .ok n) (hkind : n.session.pending = o.kind) (hne : o.kind ≠ .writeClient)
    {x : Input} {session : TSession} {db : TDatabase}
    (hc : callback gzip x n.session s.database o.kind = .ok (session, db)) :
    ∃ st', (ProxyCache.lts gzip).Reach st st' ∧ Matches (s.resume o.id session db) st' := by
  have hl := lookup_of_session hn
  have hl' : (s.lookup o.id).isSome := by rw [hl]; rfl
  obtain ⟨c, hclient, hsession⟩ := Option.map_eq_some_iff.mp ((hm.clients o.id).trans hl)
  rw [← hsession] at hkind hc
  rw [← hm.database] at hc
  cases hk : o.kind with
  | readClient =>
    rw [hk] at hkind hc
    simp only [callback] at hc
    split at hc
    · cases hc
    · rename_i r hread
      split at hc <;> cases hc
      exact ⟨_, .tail (.refl st) (.readClient hclient hkind hread), resume_matches hm ho hl' rfl rfl⟩
  | writeForeign =>
    rw [hk] at hkind hc
    cases hc
    exact ⟨_, .tail (.refl st) (.requestWritten hclient hkind), resume_matches hm ho hl' rfl rfl⟩
  | readForeign =>
    rw [hk] at hkind hc
    simp only [callback] at hc
    split at hc
    · cases hc
    · rename_i r hread
      split at hc <;> cases hc
      rcases readForeign_cases hread with ⟨p, -, hs, -⟩ | ⟨p, -, -, hs⟩
      · exact ⟨_, .tail (.refl st) (.readForeign hclient hkind hread (by rw [hs])),
          resume_matches hm ho hl' rfl rfl⟩
      · exact ⟨_, .tail (.refl st) (.endForeign hclient hkind hread (by rw [hs])),
          resume_matches hm ho hl' rfl rfl⟩
  | writeClient => exact absurd hk hne

theorem handle_matches (hi : Inv s) (hm : Matches s st) {o : Operation} (h : o.id ∈ s.ids)
    (ho : o.id ∉ s.owners) (hkind : ∀ session, s.lookup o.id = some session → session.pending = o.kind)
    {x : Input} {r : Result} {s' : TImpl} (hs : handle gzip s o x r = .ok s') :
    ∃ st', (ProxyCache.lts gzip).Reach st st' ∧ Matches s' st' := by
  unfold handle at hs
  split at hs
  · cases r with
    | success =>
      obtain ⟨_, -, hs⟩ := bind_ok hs
      split at hs
      · cases hs
      · exact stop_matches hi hm h ho hs
    | error => exact stop_matches hi hm h ho hs
    | aborted => exact stop_matches hi hm h ho hs
  · rename_i hne
    cases r with
    | success =>
      obtain ⟨n, hn, hs⟩ := bind_ok hs
      obtain ⟨⟨session, db⟩, hc, hs⟩ := bind_ok hs
      cases hs
      exact success_matches hm ho hn (hkind _ (lookup_of_session hn)) hne hc
    | error => exact stop_matches hi hm h ho hs
    | aborted =>
      cases hs
      exact ⟨st, .refl st, hm⟩

/-- Step lemma. -/
theorem run_matches (hi : Inv s) (hm : Matches s st) {l : Label} {s' : TImpl}
    (h : run gzip s l = some (.ok s')) :
    ∃ st', (ProxyCache.lts gzip).Reach st st' ∧ Matches s' st' := by
  cases l with
  | complete i r =>
    simp only [run] at h
    split at h
    · rename_i o ho
      split at h
      · cases h
        refine ⟨st, .refl st, hm.same rfl rfl fun p hp => ?_⟩
        rcases List.mem_or_eq_of_mem_set hp with hp | rfl
        · exact ⟨p, hp, rfl, rfl⟩
        · exact ⟨o, List.mem_of_getElem? ho, rfl, rfl⟩
      · cases h
    · cases h
  | handle i x =>
    simp only [run] at h
    split at h
    · rename_i o ho
      obtain ⟨r, -, hs⟩ := Option.map_eq_some_iff.mp h
      obtain ⟨hi', hid, hown⟩ := hi.take ho
      refine handle_matches hi' (hm.same rfl rfl fun p hp => ⟨p, List.mem_of_mem_eraseIdx hp, rfl, rfl⟩)
        hid hown ?_ hs
      exact hm.kinds o (List.mem_of_getElem? ho)
    · cases h
  | accept ec =>
    simp only [run] at h
    split at h
    · cases h
      unfold TImpl.accept
      split
      · exact ⟨st, .refl st, hm.same rfl rfl fun p hp => ⟨p, hp, rfl, rfl⟩⟩
      · split
        · exact ⟨st, .refl st, hm⟩
        · have hfree : st.clients s.next = none := by
            rw [← Option.map_eq_none_iff, hm.clients, TImpl.lookup, find_next hi]
            rfl
          refine ⟨_, .tail (.refl st) (.accept hfree), ?_⟩
          refine hm.update hm.database rfl (lookup_serve hi) fun o hmem => ?_
          rcases List.mem_append.mp hmem with hmem | hmem
          · exact .inr ⟨fun he => Nat.lt_irrefl _ (hi.fresh _ (he ▸ hi.live _ (List.mem_map_of_mem hmem))),
              hmem⟩
          · obtain rfl := List.mem_singleton.mp hmem
            exact .inl ⟨rfl, fun t ht => by cases ht; rfl⟩
    · cases h
  | signal =>
    simp only [run] at h
    split at h
    · cases hs : s.sessions with
      | nil =>
        rw [onSignal_empty hs] at h
        cases h
        exact ⟨st, .refl st, hm.same rfl rfl fun p hp => ⟨p, hp, rfl, rfl⟩⟩
      | cons n ns =>
        rw [onSignal_fault hi hs] at h
        cases h
    · cases h

end

/-- **The sessions are those of `ProxyCache`.** In every reachable state they are
what a run of `ProxyCache.lts` makes of them, with the same database. -/
theorem refines (gzip : Bytes → Bytes) {s : TImpl} (h : (server gzip).Reachable s) :
    ∃ st, (ProxyCache.lts gzip).Reachable st ∧ Matches s st := by
  have hI : (server gzip).Inductive fun s =>
      Inv s ∧ ∃ st, (ProxyCache.lts gzip).Reachable st ∧ Matches s st :=
    { init := fun s hs => by
        rw [hs]
        refine ⟨inv_init, .init, .of_init rfl, rfl, fun _ => rfl, ?_⟩
        simp [TImpl.init]
      step := fun s l s' hi hs => by
        obtain ⟨hi, st, hr, hm⟩ := hi
        obtain ⟨st', hr', hm'⟩ := run_matches hi hm hs
        refine ⟨?_, st', hr.trans hr', hm'⟩
        rcases run_cases hi hs with ⟨t, ht, hi'⟩ | ht | ⟨-, -, n, ns, -, ht⟩
        · cases ht
          exact hi'
        · cases ht
        · cases ht }
  exact (hI.reachable s h).2

end NetworksLab.L5.ProxyLifecycle

import NetworksLab.L5Concurrency.TftpPoll

/-!
# Sockets and rounds of the TFTP server (`udp/lib/Server.cpp`)

Every run of the poll loop, timeouts included. A session lives in `clients` and its
socket in the session; a round looks at `toPoll` and `stillAlive` by index, while the
sessions handle packets and datagrams go on arriving.

Results:
* `sockets_owned`: the open descriptors are the request socket and one for each session;
  in a round, what `poll` reported still waits when the loop comes to it, so no `Receive`
  blocks.
* `round_decides`: which sessions a round ends, and what becomes of their sockets.
-/
namespace NetworksLab.L5.TftpPoll
open NetworksLab.L1.Packet NetworksLab.L1.NetAscii NetworksLab.L2.Stream NetworksLab.L3.Tftp

variable {K : Type} [DecidableEq K] {S : Setup K} {w w' : World K}

/-! ## What a round has decided -/

/-- The mark of a session that the loop has come to: whether it has been heard in time,
if it was not reported; else what `Handle` has returned in that state of the run, on a
datagram that waited there. Nothing has happened to the session since. -/
inductive Verdict (S : Setup K) (log : List (Nat × Happening)) (pollTime : Int) (p : PollFD) (c : Session) :
    Bool → Prop
  | idle : p.revents = false → Verdict S log pollTime p c (!(pollTime - c.last > S.timeout))
  | handled {w₀ : World K} {c₀ : Session} {d : Datagram} {queue : List Datagram} {e : Env}
      {since : List (Nat × Happening)} : p.revents = true → (server S).Reachable w₀ → c₀ ∈ w₀.clients →
      w₀.sockets c₀.fd = some (d :: queue) → c = (c₀.handlePacket S w₀.files d e).session →
      log = w₀.log ++ (c.id, .datagram d e) :: since → ownEvents c.id since = [] →
      Verdict S log pollTime p c (c₀.handlePacket S w₀.files d e).more

theorem Verdict.other {log : List (Nat × Happening)} {pollTime : Int} {p : PollFD} {c : Session} {b : Bool}
    (h : Verdict S log pollTime p c b) {id : Nat} (hid : id ≠ c.id) (x : Happening) :
    Verdict S (log ++ [(id, x)]) pollTime p c b := by
  cases h with
  | idle hp => exact .idle hp
  | @handled w₀ c₀ d queue e since hp hr hc₀ hq hc hlog hsince =>
    have hlog' : log ++ [(id, x)] = w₀.log ++ (c.id, .datagram d e) :: (since ++ [(id, x)]) := by
      rw [hlog, List.append_assoc, List.cons_append]
    refine .handled hp hr hc₀ hq hc hlog' ?_
    rw [ownEvents_append, hsince, ownEvents_ne hid, ownEvents_nil, List.append_nil]

/-- The descriptors that `poll` looks at. -/
def World.fds (S : Setup K) (w : World K) : List Nat := S.requests :: w.clients.map (·.fd)

/-- The loop, in front of index `i`. -/
structure InRound (S : Setup K) (w : World K) (r : Round) : Prop where
  index : 1 ≤ r.i ∧ r.i ≤ w.clients.length + 1
  toPoll : r.toPoll.map (·.fd) = w.fds S
  marks : r.stillAlive.length = w.clients.length
  /-- what was reported of the request socket and of the sessions to come still waits -/
  waiting : ∀ j p, j = 0 ∨ r.i ≤ j → r.toPoll[j]? = some p → p.revents = true → w.waits p.fd = true
  visited : ∀ j p c, j + 1 < r.i → r.toPoll[j + 1]? = some p → w.clients[j]? = some c →
    ∃ b, r.stillAlive[j]? = some b ∧ Verdict S w.log r.pollTime p c b
  unvisited : ∀ j, r.i ≤ j + 1 → j < w.clients.length → r.stillAlive[j]? = some true

structure Owned (S : Setup K) (w : World K) : Prop where
  nodup : (w.fds S).Nodup
  opened : ∀ fd, w.sockets fd ≠ none ↔ fd ∈ w.fds S
  ids : (w.clients.map (·.id)).Nodup
  fresh : ∀ c ∈ w.clients, c.id < w.next
  round : match w.phase with
    | .polling => True
    | .visiting r => InRound S w r
    | .accepting b => b = true → w.waits S.requests = true

/-! ## Sockets -/

section
omit [DecidableEq K]

theorem waits_iff {fd : Nat} : w.waits fd = true ↔ ∃ d queue, w.sockets fd = some (d :: queue) := by
  unfold World.waits
  split
  · rename_i d queue h
    exact iff_of_true rfl ⟨d, queue, h⟩
  · rename_i h
    refine iff_of_false Bool.noConfusion ?_
    rintro ⟨d, queue, hq⟩
    exact h d queue hq

theorem closeAll_apply (sockets : Nat → Option (List Datagram)) (cs : List Session) (fd : Nat) :
    World.closeAll sockets cs fd = if fd ∈ cs.map (·.fd) then none else sockets fd := by
  induction cs generalizing sockets with
  | nil => rfl
  | cons c cs ih =>
    rw [World.closeAll, List.foldl_cons, ← World.closeAll, ih, List.map_cons]
    by_cases hfd : fd = c.fd
    · subst hfd
      simp
    · rw [Function.update_of_ne hfd]
      simp only [List.mem_cons, hfd, false_or]

end

/-- An entry of `toPoll` is about the session of its index. -/
theorem InRound.fd {r : Round} (h : InRound S w r) {j : Nat} {p : PollFD} {c : Session}
    (hp : r.toPoll[j + 1]? = some p) (hc : w.clients[j]? = some c) : p.fd = c.fd := by
  have hj := congrArg (·[j + 1]?) h.toPoll
  simpa [World.fds, hp, hc] using hj

theorem InRound.first {r : Round} (h : InRound S w r) {p : PollFD} (hp : r.toPoll[0]? = some p) :
    p.fd = S.requests := by
  have hj := congrArg (·[0]?) h.toPoll
  simpa [World.fds, hp] using hj

theorem InRound.length {r : Round} (h : InRound S w r) : r.toPoll.length = w.clients.length + 1 := by
  simpa [World.fds] using congrArg List.length h.toPoll

omit [DecidableEq K] in
theorem index_inj (h : (w.clients.map (·.id)).Nodup) {i j : Nat} {c c' : Session} (hi : w.clients[i]? = some c)
    (hj : w.clients[j]? = some c') (hid : c.id = c'.id) : i = j := by
  have hlt : i < (w.clients.map (·.id)).length := by
    rw [List.length_map]
    exact (List.getElem?_eq_some_iff.mp hi).1
  refine (List.getElem?_inj hlt h).mp ?_
  rw [List.getElem?_map, List.getElem?_map, hi, hj, Option.map_some, Option.map_some, hid]

/-- Two entries of `toPoll` are of different descriptors. -/
theorem InRound.fd_ne {r : Round} (h : InRound S w r) (hn : (w.fds S).Nodup) {i j : Nat} {p q : PollFD}
    (hij : i ≠ j) (hp : r.toPoll[i]? = some p) (hq : r.toPoll[j]? = some q) : p.fd ≠ q.fd := by
  intro he
  have hi : i < (r.toPoll.map (·.fd)).length := by
    rw [List.length_map]
    exact (List.getElem?_eq_some_iff.mp hp).1
  refine hij ((List.getElem?_inj hi (h.toPoll ▸ hn)).mp ?_)
  rw [List.getElem?_map, List.getElem?_map, hp, hq, Option.map_some, Option.map_some, he]

theorem owned_init (S : Setup K) : Owned S (.init S) where
  nodup := by simp [World.fds, World.init]
  opened fd := by simp [World.fds, World.init, Function.update_apply]
  ids := List.nodup_nil
  fresh _ h := absurd h List.not_mem_nil
  round := trivial

/-! ## Steps -/

/-- More waits than before. -/
theorem InRound.mono {r : Round} (h : InRound S w r) (hclients : w'.clients = w.clients) (hlog : w'.log = w.log)
    (hwaits : ∀ fd, w.waits fd = true → w'.waits fd = true) : InRound S w' r where
  index := hclients ▸ h.index
  toPoll := by rw [World.fds, hclients]; exact h.toPoll
  marks := hclients ▸ h.marks
  waiting j p hj hp hr := hwaits _ (h.waiting j p hj hp hr)
  visited := by rw [hclients, hlog]; exact h.visited
  unvisited := hclients ▸ h.unvisited

theorem arrive_owned (h : Owned S w) {fd : Nat} {d : Datagram} (hs : w.arrive fd d = some w') : Owned S w' := by
  obtain ⟨queue, hq, rfl⟩ := Option.map_eq_some_iff.mp hs
  have hwaits : ∀ fd', w.waits fd' = true →
      World.waits { w with sockets := Function.update w.sockets fd (some (queue ++ [d])) } fd' = true := by
    intro fd' hw
    obtain ⟨x, xs, hx⟩ := waits_iff.mp hw
    refine waits_iff.mpr ?_
    by_cases hfd : fd' = fd
    · subst hfd
      obtain rfl := Option.some.inj (hq.symm.trans hx)
      exact ⟨x, xs ++ [d], Function.update_self ..⟩
    · exact ⟨x, xs, (Function.update_of_ne hfd ..).trans hx⟩
  refine ⟨h.nodup, fun fd' => ?_, h.ids, h.fresh, ?_⟩
  · refine Iff.trans ?_ (h.opened fd')
    by_cases hfd : fd' = fd
    · subst hfd
      simp [hq]
    · simp only [Function.update_of_ne hfd]
  · have hround := h.round
    revert hround
    cases w.phase with
    | polling => exact id
    | visiting r => exact fun hround => hround.mono rfl rfl hwaits
    | accepting b => exact fun hround hb => hwaits _ (hround hb)

theorem map_fd_zipWith : ∀ (fds : List Nat) (ready : List Bool), ready.length = fds.length →
    (List.zipWith PollFD.mk fds ready).map (·.fd) = fds
  | [], _, _ => rfl
  | fd :: fds, [], h => by cases h
  | fd :: fds, b :: ready, h => by
    simp only [List.zipWith_cons_cons, List.map_cons, map_fd_zipWith fds ready (Nat.succ.inj h)]

theorem poll_owned (h : Owned S w) {ready : List Bool} {pollTime : Int}
    (hs : w.poll S ready pollTime = some w') : Owned S w' := by
  simp only [World.poll] at hs
  split at hs
  · rename_i hc
    obtain ⟨hphase, hlen, hall⟩ := hc
    cases hs
    refine ⟨h.nodup, h.opened, h.ids, h.fresh, ⟨Nat.le_refl 1, by simp⟩, map_fd_zipWith _ _ hlen,
      List.length_replicate, ?_,
      fun j p c hj => by simp at hj, fun j _ hj => List.getElem?_replicate_of_lt hj⟩
    intro j p _ hp hr
    have hp := List.all_eq_true.mp hall p (List.mem_of_getElem? hp)
    rw [hr] at hp
    exact hp
  · cases hs

/-- One index further; the session there, as it is now, has its verdict. -/
theorem InRound.next {r : Round} (h : InRound S w r) {p : PollFD} {c : Session} {b : Bool}
    (hp : r.toPoll[r.i]? = some p) (hc : w.clients[r.i - 1]? = some c) {c' : Session}
    (hclients : w'.clients = w.clients.set (r.i - 1) c') (hfd : c'.fd = c.fd)
    (hv : Verdict S w'.log r.pollTime p c' b)
    (hlog : ∀ j q x b, r.i - 1 ≠ j → w.clients[j]? = some x → Verdict S w.log r.pollTime q x b →
      Verdict S w'.log r.pollTime q x b)
    (hwaits : ∀ j q, j = 0 ∨ r.i + 1 ≤ j → r.toPoll[j]? = some q → w.waits q.fd = true → w'.waits q.fd = true) :
    InRound S w' (r.next b) := by
  obtain ⟨hlt, -⟩ := List.getElem?_eq_some_iff.mp hc
  obtain ⟨hi, hle⟩ := h.index
  have hmark := h.unvisited (r.i - 1) (by omega) hlt
  have hmarks := Round.next_marks hmark b
  have hlen : w'.clients.length = w.clients.length := by rw [hclients, List.length_set]
  refine ⟨⟨Nat.le_add_left 1 r.i, by rw [hlen]; simp only [Round.next]; omega⟩, ?_, ?_, ?_, ?_, ?_⟩
  · rw [World.fds, hclients, map_set_of_eq hc hfd]
    exact h.toPoll
  · rw [hmarks, List.length_set, hlen]
    exact h.marks
  · intro j q hj hq hr
    have hj : j = 0 ∨ r.i + 1 ≤ j := hj
    exact hwaits j q hj hq (h.waiting j q (hj.imp id Nat.le_of_succ_le) hq hr)
  · intro j q x hj hq hx
    have hj : j + 1 < r.i + 1 := hj
    rw [hmarks]
    rw [hclients] at hx
    by_cases heq : r.i - 1 = j
    · subst heq
      rw [List.getElem?_set_self hlt] at hx
      obtain rfl := Option.some.inj hx
      have hq : r.toPoll[r.i - 1 + 1]? = some q := hq
      rw [Nat.sub_add_cancel hi, hp] at hq
      obtain rfl := Option.some.inj hq
      exact ⟨b, List.getElem?_set_self (by rw [h.marks]; exact hlt), hv⟩
    · rw [List.getElem?_set_ne heq] at hx ⊢
      obtain ⟨b', hb', hv'⟩ := h.visited j q x (by omega) hq hx
      exact ⟨b', hb', hlog j q x b' heq hx hv'⟩
  · intro j hj hjl
    have hj : r.i + 1 ≤ j + 1 := hj
    rw [hmarks, List.getElem?_set_ne (by omega)]
    exact h.unvisited j (by omega) (hlen ▸ hjl)

theorem visit_owned (hr : (server S).Reachable w) (h : Owned S w) {e : Env} (hs : w.visit S e = some w') :
    Owned S w' := by
  simp only [World.visit] at hs
  split at hs
  · rename_i r hphase
    have hround := h.round
    rw [hphase] at hround
    split at hs
    · rename_i p c hp hc
      have hpfd : p.fd = c.fd := by
        have hi := Nat.sub_add_cancel hround.index.1
        exact hround.fd (hi.symm ▸ hp) hc
      split at hs
      · rename_i hrev
        obtain ⟨⟨d, w₁⟩, hrecv, rfl⟩ := Option.map_eq_some_iff.mp hs
        obtain ⟨queue, hq, rfl⟩ := recv_some hrecv
        have hset : (w.clients.set (r.i - 1) (c.handlePacket S w.files d e).session).map (·.fd) =
            w.clients.map (·.fd) := map_set_of_eq hc rfl
        have hfds : World.fds S (World.handlePacket S
            { w with sockets := Function.update w.sockets c.fd (some queue) } r c d e) = w.fds S :=
          congrArg (S.requests :: ·) hset
        have hids : (w.clients.set (r.i - 1) (c.handlePacket S w.files d e).session).map (·.id) =
            w.clients.map (·.id) := map_set_of_eq hc rfl
        refine ⟨hfds ▸ h.nodup, fun fd => ?_, hids ▸ h.ids, fun x hx => ?_, ?_⟩
        · rw [hfds, ← h.opened fd]
          change Function.update w.sockets c.fd (some queue) fd ≠ none ↔ _
          by_cases hfd : fd = c.fd
          · subst hfd
            simp [hq]
          · rw [Function.update_of_ne hfd]
        · obtain ⟨x', hx', hid⟩ := List.mem_map.mp (hids ▸ List.mem_map_of_mem hx : x.id ∈ w.clients.map (·.id))
          exact hid ▸ h.fresh x' hx'
        · have hv : Verdict S (w.log ++ [(c.id, .datagram d e)]) r.pollTime p (c.handlePacket S w.files d e).session
              (c.handlePacket S w.files d e).more := .handled hrev hr (List.mem_of_getElem? hc) hq rfl rfl rfl
          refine hround.next hp hc rfl rfl hv
            (fun j q x b hj hx hv => hv.other (fun hid => hj ?_) _) fun j q hj hq' hw => ?_
          · exact index_inj h.ids hc hx hid
          have hne : q.fd ≠ c.fd := by
            have := hround.index.1
            exact hpfd ▸ hround.fd_ne h.nodup (by omega) hq' hp
          obtain ⟨x, xs, hx⟩ := waits_iff.mp hw
          exact waits_iff.mpr ⟨x, xs, (Function.update_of_ne hne ..).trans hx⟩
      · rename_i hrev
        cases hs
        have hset : w.clients.set (r.i - 1) c = w.clients := by
          obtain ⟨hlt, he⟩ := List.getElem?_eq_some_iff.mp hc
          exact he ▸ List.set_getElem_self hlt
        exact ⟨h.nodup, h.opened, h.ids, h.fresh, hround.next hp hc hset.symm rfl (.idle (Bool.eq_false_iff.mpr hrev))
          (fun _ _ _ _ _ _ hv => hv) fun _ _ _ _ hw => hw⟩
    · cases hs
  · cases hs

/-- The sessions of a round that go on, and those that do not. -/
def keptOf (w : World K) (r : Round) : List Session := ((w.clients.zip r.stillAlive).filter (·.2)).map (·.1)

def endedOf (w : World K) (r : Round) : List Session := ((w.clients.zip r.stillAlive).filter (!·.2)).map (·.1)

omit [DecidableEq K] in
theorem mem_kept_or_ended {r : Round} (hlen : r.stillAlive.length = w.clients.length) (c : Session) :
    c ∈ w.clients ↔ c ∈ keptOf w r ∨ c ∈ endedOf w r := by
  have hfst : (w.clients.zip r.stillAlive).map (·.1) = w.clients := List.map_fst_zip (Nat.le_of_eq hlen.symm)
  constructor
  · intro hc
    rw [← hfst] at hc
    obtain ⟨x, hx, rfl⟩ := List.mem_map.mp hc
    cases hb : x.2 with
    | true => exact .inl (List.mem_map_of_mem (List.mem_filter.mpr ⟨hx, hb⟩))
    | false => exact .inr (List.mem_map_of_mem (List.mem_filter.mpr ⟨hx, by simp [hb]⟩))
  · rintro (hc | hc)
    all_goals
      obtain ⟨x, hx, rfl⟩ := List.mem_map.mp hc
      exact (List.of_mem_zip (List.mem_filter.mp hx).1).1

omit [DecidableEq K] in
theorem marked_sublist {r : Round} (hlen : r.stillAlive.length = w.clients.length) (p : Session × Bool → Bool) :
    (((w.clients.zip r.stillAlive).filter p).map (·.1)).Sublist w.clients := by
  have hfst : (w.clients.zip r.stillAlive).map (·.1) = w.clients := List.map_fst_zip (Nat.le_of_eq hlen.symm)
  conv_rhs => rw [← hfst]
  exact List.filter_sublist.map _

omit [DecidableEq K] in
theorem kept_sublist {r : Round} (hlen : r.stillAlive.length = w.clients.length) :
    (keptOf w r).Sublist w.clients := marked_sublist hlen (·.2)

omit [DecidableEq K] in
theorem ended_sublist {r : Round} (hlen : r.stillAlive.length = w.clients.length) :
    (endedOf w r).Sublist w.clients := marked_sublist hlen (!·.2)

omit [DecidableEq K] in
/-- No descriptor belongs to a session that goes on and to one that does not. -/
theorem kept_fd_ne {r : Round} (hn : (w.clients.map (·.fd)).Nodup)
    (hlen : r.stillAlive.length = w.clients.length) {c c' : Session} (hc : c ∈ keptOf w r)
    (hc' : c' ∈ endedOf w r) : c.fd ≠ c'.fd := by
  obtain ⟨x, hx, rfl⟩ := List.mem_map.mp hc
  obtain ⟨y, hy, rfl⟩ := List.mem_map.mp hc'
  obtain ⟨hx, hxb⟩ := List.mem_filter.mp hx
  obtain ⟨hy, hyb⟩ := List.mem_filter.mp hy
  intro he
  have hzip : ((w.clients.zip r.stillAlive).map (·.1.fd)).Nodup := by
    have hfst : (w.clients.zip r.stillAlive).map (·.1) = w.clients := List.map_fst_zip (Nat.le_of_eq hlen.symm)
    rw [← hfst, List.map_map] at hn
    exact hn
  obtain rfl := List.inj_on_of_nodup_map hzip hx hy he
  simp [hxb] at hyb

theorem compact_owned (h : Owned S w) {io : Nat → Io} (hs : w.compact S io = some w') : Owned S w' := by
  simp only [World.compact] at hs
  split at hs
  · rename_i r hphase
    have hround := h.round
    rw [hphase] at hround
    split at hs
    · cases hs
    · cases hs
      have hnodup := (List.nodup_cons.mp h.nodup)
      have hsub := (kept_sublist hround.marks).map (·.fd)
      refine ⟨List.nodup_cons.mpr ⟨fun hm => hnodup.1 (hsub.subset hm), hnodup.2.sublist hsub⟩, fun fd => ?_,
        h.ids.sublist ((kept_sublist hround.marks).map _),
        fun c hc => h.fresh c ((kept_sublist hround.marks).subset hc), ?_⟩
      · change World.closeAll w.sockets (endedOf w r) fd ≠ none ↔ fd ∈ S.requests :: (keptOf w r).map (·.fd)
        rw [closeAll_apply]
        split
        · rename_i hended
          obtain ⟨c', hc', rfl⟩ := List.mem_map.mp hended
          refine iff_of_false (fun hne => hne rfl) fun hm => ?_
          rcases List.mem_cons.mp hm with he | hm
          · exact hnodup.1 (he ▸ List.mem_map_of_mem ((mem_kept_or_ended hround.marks c').mpr (.inr hc')))
          · obtain ⟨c, hc, he⟩ := List.mem_map.mp hm
            exact kept_fd_ne hnodup.2 hround.marks hc hc' he
        · rename_i hended
          rw [h.opened fd, World.fds, List.mem_cons, List.mem_cons]
          refine or_congr_right ⟨fun hm => ?_, fun hm => hsub.subset hm⟩
          obtain ⟨c, hc, rfl⟩ := List.mem_map.mp hm
          rcases (mem_kept_or_ended hround.marks c).mp hc with hk | he
          · exact List.mem_map_of_mem hk
          · exact absurd (List.mem_map_of_mem he) hended
      · intro hb
        obtain ⟨p, hp, hr⟩ : ∃ p, r.toPoll[0]? = some p ∧ p.revents = true := by
          cases hp : r.toPoll[0]? with
          | none => simp [hp] at hb
          | some p => exact ⟨p, rfl, by simpa [hp] using hb⟩
        obtain ⟨x, xs, hx⟩ := waits_iff.mp (hround.first hp ▸ hround.waiting 0 p (.inl rfl) hp hr)
        refine waits_iff.mpr ⟨x, xs, (closeAll_apply _ _ _).trans ?_⟩
        rw [if_neg, hx]
        intro hended
        obtain ⟨c, hc, he⟩ := List.mem_map.mp hended
        exact hnodup.1 (he ▸ List.mem_map_of_mem ((mem_kept_or_ended hround.marks c).mpr (.inr hc)))
  · cases hs

theorem addClient_owned (h : Owned S w) {fd : Nat} {port : UInt16} {d : Datagram} {e : Env} {r : Reply K}
    (hr : S.acceptClient w.files w.next fd port d e = some (.opened r)) (hfd : w.sockets fd = none)
    (x : Happening) (io : Io) : Owned S (w.addClient S fd r x io) := by
  obtain ⟨hrid, hrfd⟩ := acceptClient_session hr
  have hids : ((w.addClient S fd r x io).clients.map (·.id)).Nodup :=
    addClient_nodup h.ids fun c hc => hrid ▸ Nat.ne_of_lt (h.fresh c hc)
  have hfresh : ∀ c ∈ (w.addClient S fd r x io).clients, c.id < w.next + 1 := by
    intro c hc
    rcases mem_addClient.mp hc with hc | ⟨-, rfl⟩
    · exact Nat.lt_succ_of_lt (h.fresh c hc)
    · exact hrid ▸ Nat.lt_succ_self _
  cases hmore : r.more with
  | false =>
    have hclients : (w.addClient S fd r x io).clients = w.clients := if_neg (by simp [hmore])
    have hsockets : (w.addClient S fd r x io).sockets = w.sockets := if_neg (by simp [hmore])
    exact ⟨by rw [World.fds, hclients]; exact h.nodup,
      by rw [World.fds, hclients, hsockets]; exact h.opened, hids, hfresh, trivial⟩
  | true =>
    have hclients : (w.addClient S fd r x io).clients = w.clients ++ [r.session] := if_pos hmore
    have hsockets : (w.addClient S fd r x io).sockets = Function.update w.sockets fd (some []) := if_pos hmore
    have hfds : (w.addClient S fd r x io).fds S = w.fds S ++ [fd] := by
      simp only [World.fds, hclients, List.map_append, List.map_singleton, hrfd, List.cons_append]
    refine ⟨?_, fun fd' => ?_, hids, hfresh, trivial⟩
    · rw [hfds, ← List.concat_eq_append]
      exact h.nodup.concat fun hm => (h.opened fd).mpr hm hfd
    · rw [hfds, hsockets, List.mem_append, List.mem_singleton, ← h.opened fd']
      by_cases he : fd' = fd
      · subst he
        simp
      · simp [he]

theorem accept_owned (h : Owned S w) {fd : Nat} {port : UInt16} {e : Env} {io : Io}
    (hs : w.accept S fd port e io = some w') : Owned S w' := by
  obtain ⟨b, -, rfl | ⟨d, w₁, hr, hs⟩⟩ := accept_cases hs
  · exact ⟨h.nodup, h.opened, h.ids, h.fresh, trivial⟩
  · obtain ⟨queue, hq, rfl⟩ := recv_some hr
    have hopened : ∀ fd, Function.update w.sockets S.requests (some queue) fd ≠ none ↔ fd ∈ w.fds S := by
      intro fd'
      by_cases he : fd' = S.requests
      · subst he
        simp [World.fds]
      · rw [Function.update_of_ne he]
        exact h.opened fd'
    have h₁ : Owned S { w with sockets := Function.update w.sockets S.requests (some queue), phase := .polling } :=
      ⟨h.nodup, hopened, h.ids, h.fresh, trivial⟩
    obtain rfl | ⟨r, hr, hfd, rfl⟩ := hs
    · exact h₁
    · exact addClient_owned h₁ hr hfd _ io

theorem step_owned (hr : (server S).Reachable w) (h : Owned S w) {l : Label} (hs : w.step S l = some w') :
    Owned S w' := by
  cases l with
  | arrive fd d => exact arrive_owned h hs
  | poll ready pollTime => exact poll_owned h hs
  | visit e => exact visit_owned hr h hs
  | compact io => exact compact_owned h hs
  | accept fd port e io => exact accept_owned h hs

theorem owned_reachable (h : (server S).Reachable w) : Owned S w := by
  have hind : (server S).Inductive fun w => (server S).Reachable w ∧ Owned S w :=
    ⟨fun w hw => ⟨.of_init hw, hw ▸ owned_init S⟩, fun _ _ _ hw hs => ⟨hw.1.next hs, step_owned hw.1 hw.2 hs⟩⟩
  exact (hind.reachable w h).2

/-! ## The results -/

/-- What the loop comes to can be read. -/
theorem InRound.visits {r : Round} (h : InRound S w r) (hphase : w.phase = .visiting r)
    (hi : r.i ≤ w.clients.length) (e : Env) : ∃ w', w.visit S e = some w' := by
  have hlt : r.i < r.toPoll.length := by
    rw [h.length]
    exact Nat.lt_succ_of_le hi
  have hlt' : r.i - 1 < w.clients.length := by
    have := h.index.1
    omega
  obtain ⟨p, hp⟩ : ∃ p, r.toPoll[r.i]? = some p := ⟨_, List.getElem?_eq_getElem hlt⟩
  obtain ⟨c, hc⟩ : ∃ c, w.clients[r.i - 1]? = some c := ⟨_, List.getElem?_eq_getElem hlt'⟩
  have hfd : p.fd = c.fd := h.fd (by rw [Nat.sub_add_cancel h.index.1]; exact hp) hc
  simp only [World.visit, hphase, hp, hc]
  split
  · rename_i hr
    obtain ⟨d, queue, hq⟩ := waits_iff.mp (hfd ▸ h.waiting r.i _ (.inr (Nat.le_refl _)) hp hr)
    simp only [World.recv, hq]
    exact ⟨_, rfl⟩
  · exact ⟨_, rfl⟩

/-- **Whose sockets are open.** In every run, timeouts included: the open descriptors are
those of the request socket and of the sessions, all different, so none is lost and none
is used when closed. What was reported waits until it is received: no pass of the loop
blocks, nor does `AcceptClient` behind it. -/
theorem sockets_owned (h : (server S).Reachable w) :
    (w.fds S).Nodup ∧ (∀ fd, w.sockets fd ≠ none ↔ fd ∈ w.fds S) ∧
      (∀ r, w.phase = .visiting r → r.i ≤ w.clients.length → ∀ e, ∃ w', w.visit S e = some w') ∧
      (w.phase = .accepting true → w.waits S.requests = true) := by
  have ho := owned_reachable h
  refine ⟨ho.nodup, ho.opened, fun r hphase hi e => ?_, fun hphase => ?_⟩
  · have hround := ho.round
    rw [hphase] at hround
    exact InRound.visits hround hphase hi e
  · have hround := ho.round
    rw [hphase] at hround
    exact hround rfl

/-- **What a round ends.** In every run: behind a round, a session that was reported is
there if its `Handle` has returned true, and any other if it was heard no longer than the
timeout before the poll. The order stays; the sockets of those that have ended are closed,
and no others. -/
theorem round_decides (h : (server S).Reachable w) {r : Round} (hphase : w.phase = .visiting r)
    {io : Nat → Io} (hs : w.compact S io = some w') :
    w'.clients.Sublist w.clients ∧
      (∀ j c, w.clients[j]? = some c → ∃ p b, r.toPoll[j + 1]? = some p ∧ p.fd = c.fd ∧
        Verdict S w.log r.pollTime p c b ∧ (c ∈ w'.clients ↔ b = true) ∧
        w'.sockets c.fd = if b then w.sockets c.fd else none) ∧
      ∀ fd, fd ∉ w.clients.map (·.fd) → w'.sockets fd = w.sockets fd := by
  have ho := owned_reachable h
  have hround := ho.round
  rw [hphase] at hround
  have hround : InRound S w r := hround
  have hnodup := (List.nodup_cons.mp ho.nodup).2
  simp only [World.compact, hphase] at hs
  split at hs
  · cases hs
  · rename_i hover
    cases hs
    have hsockets (fd : Nat) : World.closeAll w.sockets (endedOf w r) fd =
        if fd ∈ (endedOf w r).map (·.fd) then none else w.sockets fd := closeAll_apply ..
    refine ⟨kept_sublist hround.marks, fun j c hc => ?_, fun fd hfd => ?_⟩
    · have hlt := (List.getElem?_eq_some_iff.mp hc).1
      have hp := List.getElem?_eq_getElem (show j + 1 < r.toPoll.length by rw [hround.length]; omega)
      obtain ⟨b, hb, hv⟩ := hround.visited j _ c (by omega) hp hc
      have hzip : (c, b) ∈ w.clients.zip r.stillAlive :=
        List.mem_of_getElem? (List.getElem?_zip_eq_some.mpr ⟨hc, hb⟩)
      refine ⟨_, b, hp, hround.fd hp hc, hv, ?_⟩
      cases b with
      | true =>
        have hk : c ∈ keptOf w r := List.mem_map_of_mem (List.mem_filter.mpr ⟨hzip, rfl⟩)
        refine ⟨iff_of_true hk rfl, (hsockets c.fd).trans (if_neg fun hm => ?_)⟩
        obtain ⟨c', hc', he⟩ := List.mem_map.mp hm
        exact kept_fd_ne hnodup hround.marks hk hc' he.symm
      | false =>
        have he : c ∈ endedOf w r := List.mem_map_of_mem (List.mem_filter.mpr ⟨hzip, rfl⟩)
        refine ⟨iff_of_false (fun hk => kept_fd_ne hnodup hround.marks hk he rfl) Bool.noConfusion, ?_⟩
        exact (hsockets c.fd).trans (if_pos (List.mem_map_of_mem he))
    · refine (hsockets fd).trans (if_neg fun hm => hfd ?_)
      obtain ⟨c, hc, rfl⟩ := List.mem_map.mp hm
      exact List.mem_map_of_mem ((mem_kept_or_ended hround.marks c).mpr (.inr hc))

/-! ### A session that is not heard of -/

/-- A client asks for "a" and falls silent; another datagram comes when the timeout is over. -/
def silentLabels : List Label :=
  [.arrive 3 ⟨reader, TPacket.toBytes (.request ⟨.read, [0x61], .octet⟩)⟩, .poll [true] 0, .compact fun _ => calm.io,
    .accept 4 1069 calm calm.io, .arrive 3 ⟨writer, []⟩, .poll [true, false] 2001, .visit calm]

def silentRun : Option (World Bytes) :=
  LTS.runFn (World.step twoSetup) (fun _ _ => true) (.init twoSetup) silentLabels

theorem silentRun_reachable {w : World Bytes} (h : silentRun = some w) : (server twoSetup).Reachable w := by
  have hr : ((server twoSetup).restrict fun _ _ => True).Reachable w :=
    ⟨_, rfl, LTS.reach_of_runFn (fun _ _ _ => trivial) h⟩
  exact hr.of_restrict

theorem sockets_owned_silent : ∃ w : World Bytes, w.fds twoSetup = [3, 4] ∧ (w.fds twoSetup).Nodup ∧
    (∀ fd, w.sockets fd ≠ none ↔ fd ∈ w.fds twoSetup) := by
  have hrun : silentRun.map (fun w => w.fds twoSetup) = some [3, 4] := by decide +kernel
  obtain ⟨w, hw, hfds⟩ := Option.map_eq_some_iff.mp hrun
  obtain ⟨hnodup, hopened, -⟩ := sockets_owned (silentRun_reachable hw)
  exact ⟨w, hfds, hnodup, hopened⟩

/-- The timeout is over: the session ends with this round, and its socket is closed. -/
theorem round_decides_silent : ∃ (w w' : World Bytes) (c : Session), (server twoSetup).Reachable w ∧
    w.clients = [c] ∧ w.compact twoSetup (fun _ => calm.io) = some w' ∧ c ∉ w'.clients ∧ w'.sockets c.fd = none := by
  have hrun : silentRun.map (fun w => (w.phase, w.clients.map fun c => (c.fd, c.last))) =
      some (.visiting ⟨2, [⟨3, true⟩, ⟨4, false⟩], 2001, [false]⟩, [(4, 0)]) := by decide +kernel
  obtain ⟨w, hw, hend⟩ := Option.map_eq_some_iff.mp hrun
  obtain ⟨hphase, hclients⟩ := Prod.mk.inj hend
  obtain ⟨c, hc, hlast⟩ := List.map_eq_singleton_iff.mp hclients
  obtain ⟨w', hs⟩ : ∃ w', w.compact twoSetup (fun _ => calm.io) = some w' := by
    simp [World.compact, hphase, hc]
  have hr := silentRun_reachable hw
  obtain ⟨-, hall, -⟩ := round_decides hr hphase hs
  obtain ⟨p, b, hp, -, hv, hmem, hsocket⟩ := hall 0 c (by rw [hc]; rfl)
  obtain rfl : (⟨4, false⟩ : PollFD) = p := Option.some.inj hp
  cases hv with
  | handled hrev => cases hrev
  | idle =>
    have hlate : (!(2001 - c.last > twoSetup.timeout)) = false := by
      rw [(Prod.mk.inj hlast).2]
      decide
    rw [hlate] at hmem hsocket
    exact ⟨w, w', c, hr, hc, hs, fun hm => Bool.noConfusion (hmem.mp hm), hsocket⟩

end NetworksLab.L5.TftpPoll

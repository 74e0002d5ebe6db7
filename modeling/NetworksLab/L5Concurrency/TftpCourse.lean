import NetworksLab.L5Concurrency.TftpSockets

/-!
# One session of the TFTP server, and its file (`udp/lib/Server.cpp`)

What a run of the server is to one session and one file, timeouts included. Other
sessions open, handle their datagrams and end; as long as none of them is asked to write
the file, nothing of this shows.

Results:
* `course_reachable`: such a run is, to the session and the file, a run of the session
  alone (`course`), which may time out whenever it has not been heard.
-/
namespace NetworksLab.L5.TftpPoll
open NetworksLab.L1.Packet NetworksLab.L1.NetAscii NetworksLab.L2.Stream NetworksLab.L3.Tftp

variable {K : Type} [DecidableEq K] {S : Setup K} {w w' : World K} {id : Nat} {k : K}

/-! ## Who asks for what -/

def Datagram.packet (d : Datagram) : Option TPacket := (TTransport.receive d.src d.bytes).packet.toOption

/-- The packet that a session has been handed. -/
def Happening.packet : Happening → Option TPacket
  | .request _ _ _ d _ => d.packet
  | .datagram d _ => d.packet
  | .sweep _ => none

/-- The client that has opened a session, and its request. -/
def Happening.opener : Happening → Option (Endpoint × TRequestPacket)
  | .request _ _ _ d _ =>
    match d.packet with
    | some (.request q) => some (d.src, q)
    | _ => none
  | _ => none

def World.opening (w : World K) (id : Nat) : Option (Endpoint × TRequestPacket) :=
  (w.own id).head?.bind Happening.opener

/-- No session but this one has been asked to write the file. -/
def World.Spared (S : Setup K) (w : World K) (id : Nat) (k : K) : Prop :=
  ∀ id' src q, id' ≠ id → w.opening id' = some (src, q) → q.type = .write → S.path q.filename ≠ k

/-- What `AcceptClient` makes of the request in a datagram. -/
theorem acceptClient_opens {files : FileSystem K} {fd : Nat} {port : UInt16} {d : Datagram} {e : Env}
    {r : Reply K} (h : S.acceptClient files id fd port d e = some (.opened r)) :
    ∃ q role, d.packet = some (.request q) ∧ newClient (S.view files) e.io.opened q = some role ∧
      let h := role.handle (S.view files) e.io.disk (.request q)
      r = { session := ⟨id, fd, ⟨d.src, port, h.client⟩, q.filename, e.now⟩
            files := created files (S.path q.filename) e.io.opened h.client
            sends := h.sends.map fun p => (d.src, p)
            more := h.more } := by
  simp only [Setup.acceptClient] at h
  cases ha : L3.Tftp.acceptClient (S.view files) e.io port (TTransport.receive d.src d.bytes) with
  | threw => simp [ha] at h
  | refused answer => simp [ha] at h
  | opened client sends more =>
    obtain ⟨q, hq⟩ := acceptClient_opened ha
    have hname : requested (TTransport.receive d.src d.bytes) = q.filename := by rw [requested, hq]
    simp only [ha, hname, Option.some.injEq, Opening.opened.injEq] at h
    simp only [L3.Tftp.acceptClient, hq, Expecting.visit, requestVisitor] at ha
    split at ha
    · cases ha
    · rename_i role hnew
      obtain ⟨rfl, rfl, rfl⟩ := Accepted.opened.inj ha
      exact ⟨q, role, by rw [Datagram.packet, hq]; rfl, hnew, h.symm⟩

/-! ## Who writes the file -/

def Session.Writes (S : Setup K) (c : Session) (k : K) : Prop :=
  (∃ r, c.client.role = .writing r) ∧ S.path c.filename = k

section
omit [DecidableEq K]

theorem writing_handle (files : Files) (disk : Disk) (p : TPacket) (role : Role) :
    (∃ r, (role.handle files disk p).client = .writing r) ↔ ∃ r, role = .writing r := by
  cases role with
  | reading r => exact iff_of_false (fun ⟨_, h⟩ => Role.noConfusion h) fun ⟨_, h⟩ => Role.noConfusion h
  | writing r => exact iff_of_true ⟨_, rfl⟩ ⟨r, rfl⟩

theorem writing_handlePacket (files : Files) (disk : Disk) (c : IClient) (packet : TReceiveResult) :
    (∃ r, (c.handlePacket files disk packet).1.role = .writing r) ↔ ∃ r, c.role = .writing r := by
  unfold IClient.handlePacket
  cases packet.packet with
  | error e => exact Iff.rfl
  | ok p => exact writing_handle files disk p c.role

/-- The constructors, by the type of the request. -/
theorem newClient_writing {files : Files} {opened : Bool} {q : TRequestPacket} {role : Role}
    (h : newClient files opened q = some role) : (∃ r, role = .writing r) ↔ q.type = .write := by
  unfold newClient at h
  cases htype : q.type with
  | write =>
    cases hmode : q.mode <;> simp only [htype, hmode, Option.some.injEq] at h <;>
      exact iff_of_true ⟨_, h.symm⟩ rfl
  | read =>
    refine iff_of_false ?_ (by simp)
    rintro ⟨r, rfl⟩
    cases hmode : q.mode <;> simp [htype, hmode] at h

end

theorem Session.handlePacket_frame {files : FileSystem K} {c : Session} (h : ¬ c.Writes S k) (d : Datagram)
    (e : Env) : (c.handlePacket S files d e).files k = files k := by
  by_cases hk : k = S.path c.filename
  · cases hrole : c.client.role with
    | writing r => exact absurd ⟨⟨r, hrole⟩, hk.symm⟩ h
    | reading r =>
      simp only [Session.handlePacket, hrole]
      rfl
  · exact (appended_at _ _ _).frame files k hk

theorem Session.handlePacket_writes {files : FileSystem K} {c : Session} (d : Datagram) (e : Env) :
    (c.handlePacket S files d e).session.Writes S k ↔ c.Writes S k :=
  and_congr_left fun _ => writing_handlePacket ..

theorem Session.destroy_frame {files : FileSystem K} {c : Session} (h : ¬ c.Writes S k) (io : Io) :
    c.destroy S files io k = files k := by
  by_cases hk : k = S.path c.filename
  · cases hrole : c.client.role with
    | writing r => exact absurd ⟨⟨r, hrole⟩, hk.symm⟩ h
    | reading r => simp only [Session.destroy, hrole]
  · exact (Session.destroy_at S c io).frame files k hk

theorem destroyAll_frame (io : Nat → Io) : ∀ {cs : List Session} {files : FileSystem K},
    (∀ c ∈ cs, ¬ c.Writes S k) → World.destroyAll S io files cs k = files k
  | [], _, _ => rfl
  | c :: cs, files, h => calc
    World.destroyAll S io files (c :: cs) k = c.destroy S files (io c.id) k :=
      destroyAll_frame io fun c' hc' => h c' (List.mem_cons_of_mem _ hc')
    _ = files k := Session.destroy_frame (h c List.mem_cons_self) (io c.id)

/-- A new session that does not write the file has not touched it. -/
theorem opened_frame {files : FileSystem K} {fd : Nat} {port : UInt16} {d : Datagram} {e : Env} {r : Reply K}
    (h : S.acceptClient files id fd port d e = some (.opened r)) (hr : ¬ r.session.Writes S k) :
    r.files k = files k := by
  obtain ⟨q, role, -, -, rfl⟩ := acceptClient_opens h
  simp only at hr ⊢
  by_cases hk : k = S.path q.filename
  · generalize (role.handle (S.view files) e.io.disk (.request q)).client = role' at hr ⊢
    cases role' with
    | writing r => exact absurd ⟨⟨r, rfl⟩, hk.symm⟩ hr
    | reading r => rfl
  · exact (created_at _ _ _).frame files k hk

/-! ## A session and its file -/

/-- A session that is `going` has not been marked in `stillAlive`. -/
inductive Stage where
  | unborn
  | going (c : Session)
  | ended (c : Session)
  | gone

structure Course where
  stage : Stage
  events : List Happening
  sent : Sends
  file : Option IStream

/-- `AcceptClient` has opened the session. -/
def Course.open_ (S : Setup K) (k : K) (t : Course) (r : Reply K) (x : Happening) (io : Io) : Course where
  stage := if r.more then .going r.session else .gone
  events := t.events ++ [x, .sweep io]
  sent := t.sent ++ r.sends
  file := (if r.more then r.files else r.session.destroy S r.files io) k

/-- The session has handled a datagram. -/
def Course.handle (k : K) (t : Course) (r : Reply K) (x : Happening) : Course where
  stage := if r.more then .going r.session else .ended r.session
  events := t.events ++ [x]
  sent := t.sent ++ r.sends
  file := r.files k

/-- `files` are all files at that moment; of the others, the session sees whether they
exist. -/
inductive Course.Step (S : Setup K) (id : Nat) (k : K) : Course → Course → Prop
  | request {t : Course} {files : FileSystem K} {fd : Nat} {port : UInt16} {d : Datagram} {e : Env} {r : Reply K} :
      t.stage = .unborn → files k = t.file → S.acceptClient files id fd port d e = some (.opened r) → (io : Io) →
      Step S id k t (t.open_ S k r (.request id fd port d e) io)
  | datagram {t : Course} {files : FileSystem K} {c : Session} : t.stage = .going c → files k = t.file →
      (d : Datagram) → (e : Env) →
      Step S id k t (t.handle k (c.handlePacket S files d e) (.datagram d e))
  | late {t : Course} {c : Session} : t.stage = .going c → Step S id k t { t with stage := .ended c }
  | sweep {t : Course} {c : Session} : t.stage = .going c → (io : Io) →
      Step S id k t { t with events := t.events ++ [.sweep io] }
  | destroy {t : Course} {files : FileSystem K} {c : Session} : t.stage = .ended c → files k = t.file →
      (io : Io) → Step S id k t ⟨.gone, t.events ++ [.sweep io], t.sent, c.destroy S files io k⟩

/-- The session on its own. -/
def course (S : Setup K) (id : Nat) (k : K) : LTS Course Unit where
  init t := t = ⟨.unborn, [], [], S.files k⟩
  step t _ t' := Course.Step S id k t t'

/-! ## What a world shows of it -/

/-- Where the session is. -/
def World.Stands (w : World K) (id : Nat) : Stage → Prop
  | .unborn => w.next ≤ id
  | .going c => c.id = id ∧ ∃ j : Nat, w.clients[j]? = some c ∧ w.marks[j]? = some true
  | .ended c => c.id = id ∧ ∃ j : Nat, w.clients[j]? = some c ∧ w.marks[j]? = some false
  | .gone => id < w.next ∧ id ∉ w.clients.map (·.id)

structure Shows (w : World K) (id : Nat) (k : K) (t : Course) : Prop where
  stage : w.Stands id t.stage
  events : w.own id = t.events
  sent : w.sent id = t.sent
  file : w.files k = t.file

/-- What the sessions to come have done: nothing. -/
def World.Unborn (w : World K) : Prop := ∀ id, w.next ≤ id → w.own id = [] ∧ w.sent id = []

section
omit [DecidableEq K]

/-- The session at an index, with its mark. -/
theorem World.Stands.at (hids : (w.clients.map (·.id)).Nodup) (hfresh : ∀ c ∈ w.clients, c.id < w.next)
    {stage : Stage} (h : w.Stands id stage) {j : Nat} {c : Session} {b : Bool} (hc : w.clients[j]? = some c)
    (hb : w.marks[j]? = some b) (hid : c.id = id) : stage = if b then .going c else .ended c := by
  have hmem := List.mem_of_getElem? hc
  have hsame {c' : Session} {b' : Bool} (hid' : c'.id = id) {j' : Nat} (hc' : w.clients[j']? = some c')
      (hb' : w.marks[j']? = some b') : c' = c ∧ b' = b := by
    obtain rfl := index_inj hids hc' hc (hid'.trans hid.symm)
    exact ⟨Option.some.inj (hc'.symm.trans hc), Option.some.inj (hb'.symm.trans hb)⟩
  cases stage with
  | unborn => exact absurd (hid ▸ hfresh c hmem) (Nat.not_lt.mpr h)
  | going c' =>
    obtain ⟨hid', j', hc', hb'⟩ := h
    obtain ⟨rfl, rfl⟩ := hsame hid' hc' hb'
    rfl
  | ended c' =>
    obtain ⟨hid', j', hc', hb'⟩ := h
    obtain ⟨rfl, rfl⟩ := hsame hid' hc' hb'
    rfl
  | gone => exact absurd (List.mem_map.mpr ⟨c, hmem, hid⟩) h.2

/-- Another session has changed, or its mark. -/
theorem World.Stands.other {stage : Stage} (h : w.Stands id stage) {i : Nat} {c c' : Session} {b : Bool}
    (hc : w.clients[i]? = some c) (hid : c.id ≠ id) (hclients : w'.clients = w.clients.set i c') (hid' : c'.id = c.id)
    (hmarks : w'.marks = w.marks.set i b) (hnext : w'.next = w.next) : w'.Stands id stage := by
  have hne {c₀ : Session} (hid₀ : c₀.id = id) {j : Nat} (hc₀ : w.clients[j]? = some c₀) : i ≠ j := by
    rintro rfl
    obtain rfl := Option.some.inj (hc.symm.trans hc₀)
    exact hid hid₀
  cases stage with
  | unborn =>
    rw [World.Stands, hnext]
    exact h
  | going c₀ =>
    obtain ⟨hid₀, j, hc₀, hb₀⟩ := h
    have hij := hne hid₀ hc₀
    exact ⟨hid₀, j, by rw [hclients, List.getElem?_set_ne hij, hc₀], by rw [hmarks, List.getElem?_set_ne hij, hb₀]⟩
  | ended c₀ =>
    obtain ⟨hid₀, j, hc₀, hb₀⟩ := h
    have hij := hne hid₀ hc₀
    exact ⟨hid₀, j, by rw [hclients, List.getElem?_set_ne hij, hc₀], by rw [hmarks, List.getElem?_set_ne hij, hb₀]⟩
  | gone =>
    obtain ⟨hlt, hmem⟩ := h
    refine ⟨hnext ▸ hlt, ?_⟩
    rw [hclients, map_set_of_eq hc hid']
    exact hmem

theorem World.Stands.of_eq {stage : Stage} (h : w.Stands id stage) (hclients : w'.clients = w.clients)
    (hmarks : w'.marks = w.marks) (hnext : w'.next = w.next) : w'.Stands id stage := by
  cases stage <;> simp only [World.Stands, hclients, hmarks, hnext] <;> exact h

end

/-! ## Steps -/

/-- The session takes a step, or nothing shows. -/
def Follows (S : Setup K) (w' : World K) (id : Nat) (k : K) (t : Course) : Prop :=
  ∃ t', (t' = t ∨ Course.Step S id k t t') ∧ Shows w' id k t'

/-- The other sessions do not write the file. -/
def World.Foreign (S : Setup K) (w : World K) (id : Nat) (k : K) : Prop :=
  ∀ c ∈ w.clients, c.id ≠ id → ¬ c.Writes S k

variable {t : Course}

theorem Shows.of_eq (h : Shows w id k t) (hclients : w'.clients = w.clients) (hmarks : w'.marks = w.marks)
    (hnext : w'.next = w.next) (hlog : w'.log = w.log) (hsent : w'.sent = w.sent) (hfiles : w'.files = w.files) :
    Follows S w' id k t :=
  ⟨t, .inl rfl, h.stage.of_eq hclients hmarks hnext, by rw [World.own, hlog]; exact h.events,
    by rw [hsent]; exact h.sent, by rw [hfiles]; exact h.file⟩

theorem arrive_shows (h : Shows w id k t) {fd : Nat} {d : Datagram} (hs : w.arrive fd d = some w') :
    Follows S w' id k t := by
  obtain ⟨queue, -, rfl⟩ := Option.map_eq_some_iff.mp hs
  exact h.of_eq rfl rfl rfl rfl rfl rfl

theorem poll_shows (h : Shows w id k t) {ready : List Bool} {pollTime : Int}
    (hs : w.poll S ready pollTime = some w') : Follows S w' id k t := by
  simp only [World.poll] at hs
  split at hs
  · rename_i hc
    cases hs
    have hmarks : w.marks = List.replicate w.clients.length true := by rw [World.marks, hc.1]
    exact h.of_eq rfl hmarks.symm rfl rfl rfl rfl
  · cases hs

/-- The session at the index handles a datagram. -/
theorem handlePacket_shows (ho : Owned S w) (hf : w.Foreign S id k) (h : Shows w id k t) {r : Round}
    (hphase : w.phase = .visiting r) {c : Session} (hc : w.clients[r.i - 1]? = some c)
    (hmark : r.stillAlive[r.i - 1]? = some true) (d : Datagram) (e : Env) :
    Follows S (w.handlePacket S r c d e) id k t := by
  have hlt := (List.getElem?_eq_some_iff.mp hc).1
  have hmarks := World.marks_visiting hphase
  have hmarks' := Round.next_marks hmark (c.handlePacket S w.files d e).more
  have hown : (w.handlePacket S r c d e).own id = ownEvents id (w.log ++ [(c.id, .datagram d e)]) := rfl
  have hsent : (w.handlePacket S r c d e).sent =
      Function.update w.sent c.id (w.sent c.id ++ (c.handlePacket S w.files d e).sends) := rfl
  by_cases hid : c.id = id
  · have hgoing := h.stage.at ho.ids ho.fresh hc (hmarks ▸ hmark) hid
    refine ⟨_, .inr (.datagram hgoing h.file d e), ?_, ?_, ?_, rfl⟩
    · have hplace : (w.handlePacket S r c d e).clients[r.i - 1]? = some (c.handlePacket S w.files d e).session :=
        List.getElem?_set_self hlt
      have hmark' : (w.handlePacket S r c d e).marks[r.i - 1]? = some (c.handlePacket S w.files d e).more :=
        (congrArg (·[r.i - 1]?) hmarks').trans
          (List.getElem?_set_self (List.getElem?_eq_some_iff.mp hmark).1)
      simp only [Course.handle]
      cases hmore : (c.handlePacket S w.files d e).more with
      | true => exact ⟨hid, _, hplace, hmore ▸ hmark'⟩
      | false => exact ⟨hid, _, hplace, hmore ▸ hmark'⟩
    · rw [hown, ownEvents_append, hid, ownEvents_self, ownEvents_nil]
      exact congrArg (· ++ [.datagram d e]) h.events
    · rw [hsent, hid, Function.update_self, h.sent]
      rfl
  · rw [← hmarks] at hmarks'
    refine ⟨t, .inl rfl, h.stage.other hc hid rfl rfl hmarks' rfl, ?_, ?_, ?_⟩
    · rw [hown, ownEvents_append, ownEvents_ne hid, ownEvents_nil, List.append_nil]
      exact h.events
    · rw [hsent, Function.update_of_ne (Ne.symm hid)]
      exact h.sent
    · exact (Session.handlePacket_frame (hf c (List.mem_of_getElem? hc) hid) d e).trans h.file

theorem visit_shows (ho : Owned S w) (hf : w.Foreign S id k) (h : Shows w id k t) {e : Env}
    (hs : w.visit S e = some w') : Follows S w' id k t := by
  simp only [World.visit] at hs
  split at hs
  · rename_i r hphase
    have hround := ho.round
    rw [hphase] at hround
    have hround : InRound S w r := hround
    have hmarks := World.marks_visiting hphase
    split at hs
    · rename_i p c hp hc
      obtain ⟨hlt, hget⟩ := List.getElem?_eq_some_iff.mp hc
      have hi := hround.index.1
      have hmark := hround.unvisited (r.i - 1) (by omega) hlt
      split at hs
      · obtain ⟨⟨d, w₁⟩, hrecv, rfl⟩ := Option.map_eq_some_iff.mp hs
        obtain ⟨queue, hq, rfl⟩ := recv_some hrecv
        -- what waits elsewhere does not show, so the session handles the datagram in `w`
        obtain ⟨t', ht', hstage, hevents, hsent, hfile⟩ := handlePacket_shows ho hf h hphase hc hmark d e
        exact ⟨t', ht', hstage.of_eq rfl rfl rfl, hevents, hsent, hfile⟩
      · cases hs
        generalize (!(r.pollTime - c.last > S.timeout)) = b
        have hmarks' := Round.next_marks hmark b
        have hmark' : (r.next b).stillAlive[r.i - 1]? = some b :=
          (congrArg (·[r.i - 1]?) hmarks').trans (List.getElem?_set_self (List.getElem?_eq_some_iff.mp hmark).1)
        have hset : w.clients.set (r.i - 1) c = w.clients := hget ▸ List.set_getElem_self hlt
        by_cases hid : c.id = id
        · have hgoing := h.stage.at ho.ids ho.fresh hc (hmarks ▸ hmark) hid
          cases b with
          | true => exact ⟨t, .inl rfl, hgoing ▸ ⟨hid, r.i - 1, hc, hmark'⟩, h.events, h.sent, h.file⟩
          | false => exact ⟨_, .inr (.late hgoing), ⟨hid, r.i - 1, hc, hmark'⟩, h.events, h.sent, h.file⟩
        · rw [← hmarks] at hmarks'
          exact ⟨t, .inl rfl, h.stage.other hc hid hset.symm rfl hmarks' rfl, h.events, h.sent, h.file⟩
    · cases hs
  · cases hs

theorem ownEvents_sweep (io : Nat → Io) : ∀ {cs : List Session}, (cs.map (·.id)).Nodup → id ∈ cs.map (·.id) →
    ownEvents id (cs.map fun c => (c.id, Happening.sweep (io c.id))) = [.sweep (io id)]
  | [], _, hid => absurd hid List.not_mem_nil
  | c :: cs, hn, hid => by
    rw [List.map_cons, List.nodup_cons] at hn
    rw [List.map_cons]
    by_cases hc : c.id = id
    · subst hc
      rw [ownEvents_self, ownEvents_sweeps io hn.1]
    · rw [ownEvents_ne hc]
      exact ownEvents_sweep io hn.2 ((List.mem_cons.mp hid).resolve_left (Ne.symm hc))

/-- Of the destructors of a list of sessions, one may write the file. -/
theorem destroyAll_one (io : Nat → Io) {cs : List Session} {c : Session} (hc : c ∈ cs)
    (hn : (cs.map (·.id)).Nodup) (hother : ∀ c' ∈ cs, c'.id ≠ c.id → ¬ c'.Writes S k) (files : FileSystem K) :
    ∃ files', files' k = files k ∧ World.destroyAll S io files cs k = c.destroy S files' (io c.id) k := by
  obtain ⟨before, behind, rfl⟩ := List.append_of_mem hc
  rw [List.map_append, List.map_cons, List.nodup_middle, ← List.map_append] at hn
  have hne {c' : Session} (hc' : c' ∈ before ++ behind) : ¬ c'.Writes S k := by
    refine hother c' ?_ fun hid => (List.nodup_cons.mp hn).1 (hid ▸ List.mem_map_of_mem hc')
    rcases List.mem_append.mp hc' with hc' | hc'
    · exact List.mem_append_left _ hc'
    · exact List.mem_append_right _ (List.mem_cons_of_mem _ hc')
  refine ⟨World.destroyAll S io files before, destroyAll_frame io fun c' hc' => hne (List.mem_append_left _ hc'), ?_⟩
  rw [World.destroyAll, List.foldl_append, List.foldl_cons]
  exact destroyAll_frame io fun c' hc' => hne (List.mem_append_right _ hc')

/-- Where a session of the vector is, behind the loop. -/
theorem Owned.stage_of_marked (ho : Owned S w) {r : Round} (hphase : w.phase = .visiting r) {stage : Stage}
    (h : w.Stands id stage) {x : Session × Bool} (hx : x ∈ w.clients.zip r.stillAlive) (hid : x.1.id = id) :
    stage = if x.2 then .going x.1 else .ended x.1 := by
  obtain ⟨j, hj⟩ := List.mem_iff_getElem?.mp hx
  obtain ⟨hc, hb⟩ := List.getElem?_zip_eq_some.mp hj
  exact h.at ho.ids ho.fresh hc (World.marks_visiting hphase ▸ hb) hid

theorem Owned.stage_of_kept (ho : Owned S w) {r : Round} (hphase : w.phase = .visiting r) {stage : Stage}
    (h : w.Stands id stage) {c : Session} (hc : c ∈ keptOf w r) (hid : c.id = id) : stage = .going c := by
  obtain ⟨x, hx, rfl⟩ := List.mem_map.mp hc
  obtain ⟨hx, hb⟩ := List.mem_filter.mp hx
  rw [ho.stage_of_marked hphase h hx hid, if_pos hb]

theorem Owned.stage_of_ended (ho : Owned S w) {r : Round} (hphase : w.phase = .visiting r) {stage : Stage}
    (h : w.Stands id stage) {c : Session} (hc : c ∈ endedOf w r) (hid : c.id = id) : stage = .ended c := by
  obtain ⟨x, hx, rfl⟩ := List.mem_map.mp hc
  obtain ⟨hx, hb⟩ := List.mem_filter.mp hx
  rw [ho.stage_of_marked hphase h hx hid, if_neg (by simpa using hb)]

theorem compact_shows (ho : Owned S w) (hf : w.Foreign S id k) (h : Shows w id k t) {io : Nat → Io}
    (hs : w.compact S io = some w') : Follows S w' id k t := by
  simp only [World.compact] at hs
  split at hs
  · rename_i r hphase
    have hround := ho.round
    rw [hphase] at hround
    have hround : InRound S w r := hround
    split at hs
    · cases hs
    · cases hs
      have hsub := ended_sublist hround.marks
      by_cases hmem : id ∈ w.clients.map (·.id)
      · have hevents : ownEvents id (w.log ++ w.clients.map fun c => (c.id, .sweep (io c.id))) =
            t.events ++ [.sweep (io id)] := by
          rw [ownEvents_append, ownEvents_sweep io ho.ids hmem]
          exact congrArg (· ++ [.sweep (io id)]) h.events
        obtain ⟨c, hc, hid⟩ := List.mem_map.mp hmem
        rcases (mem_kept_or_ended hround.marks c).mp hc with hk | he
        · have hstage := ho.stage_of_kept hphase h.stage hk hid
          refine ⟨_, .inr (.sweep hstage (io id)), ?_, hevents, h.sent, ?_⟩
          · obtain ⟨j, hj⟩ := List.mem_iff_getElem?.mp hk
            rw [hstage]
            exact ⟨hid, j, hj, List.getElem?_replicate_of_lt (List.getElem?_eq_some_iff.mp hj).1⟩
          · refine (destroyAll_frame io fun c' hc' => ?_).trans h.file
            refine hf c' (hsub.subset hc') fun hid' => ?_
            rw [ho.stage_of_ended hphase h.stage hc' hid'] at hstage
            cases hstage
        · have hstage := ho.stage_of_ended hphase h.stage he hid
          obtain ⟨files', hfile, hdestroy⟩ := destroyAll_one io he (ho.ids.sublist (hsub.map _))
            (fun c' hc' hne => hf c' (hsub.subset hc') (hid ▸ hne)) w.files
          refine ⟨_, .inr (.destroy hstage (hfile.trans h.file) (io id)), ?_, hevents, h.sent, hid ▸ hdestroy⟩
          refine ⟨hid ▸ ho.fresh c hc, fun hm => ?_⟩
          obtain ⟨c', hc', hid'⟩ := List.mem_map.mp hm
          rw [ho.stage_of_kept hphase h.stage hc' hid'] at hstage
          cases hstage
      · have hother {c' : Session} (hc' : c' ∈ w.clients) : c'.id ≠ id := fun hid =>
          hmem (hid ▸ List.mem_map_of_mem hc')
        refine ⟨t, .inl rfl, ?_, ?_, h.sent, ?_⟩
        · have hstage := h.stage
          revert hstage
          cases t.stage with
          | unborn => exact fun hstage => hstage
          | going c =>
            rintro ⟨hid, j, hc, -⟩
            exact absurd hid (hother (List.mem_of_getElem? hc))
          | ended c =>
            rintro ⟨hid, j, hc, -⟩
            exact absurd hid (hother (List.mem_of_getElem? hc))
          | gone =>
            rintro ⟨hlt, hnot⟩
            exact ⟨hlt, fun hm => hnot (((kept_sublist hround.marks).map _).subset hm)⟩
        · change ownEvents id (w.log ++ _) = _
          rw [ownEvents_append, ownEvents_sweeps io hmem, List.append_nil]
          exact h.events
        · exact (destroyAll_frame io fun c' hc' => hf c' (hsub.subset hc') (hother (hsub.subset hc'))).trans h.file
  · cases hs

/-- What the events of a new session are in the log. -/
theorem own_addClient (hu : w.Unborn) {fd : Nat} {r : Reply K} (x : Happening) (io : Io) (i : Nat) :
    (w.addClient S fd r x io).own i = if i = w.next then [x, .sweep io] else w.own i := by
  change ownEvents i (w.log ++ [(w.next, x)] ++ [(w.next, .sweep io)]) = _
  rw [List.append_assoc, ownEvents_append, List.singleton_append]
  split
  · rename_i hi
    subst hi
    rw [ownEvents_self, ownEvents_self, ownEvents_nil]
    exact congrArg (· ++ _) (hu w.next (Nat.le_refl _)).1
  · rename_i hi
    rw [ownEvents_ne (Ne.symm hi), ownEvents_ne (Ne.symm hi), ownEvents_nil, List.append_nil]
    rfl

omit [DecidableEq K] in
theorem World.Stands.unborn (hfresh : ∀ c ∈ w.clients, c.id < w.next) {stage : Stage} (h : w.Stands id stage)
    (hid : w.next ≤ id) : stage = .unborn := by
  have hnot {c : Session} (hc : c.id = id) {j : Nat} (hj : w.clients[j]? = some c) : False :=
    absurd (hc ▸ hfresh c (List.mem_of_getElem? hj)) (Nat.not_lt.mpr hid)
  cases stage with
  | unborn => rfl
  | going c => exact (hnot h.1 h.2.choose_spec.1).elim
  | ended c => exact (hnot h.1 h.2.choose_spec.1).elim
  | gone => exact absurd h.1 (Nat.not_lt.mpr hid)

theorem addClient_shows (hu : w.Unborn) (hfresh : ∀ c ∈ w.clients, c.id < w.next) (h : Shows w id k t) {b : Bool}
    (hphase : w.phase = .accepting b) {fd : Nat} {port : UInt16} {d : Datagram} {e : Env} {r : Reply K}
    (hr : S.acceptClient w.files w.next fd port d e = some (.opened r)) (hnot : w.next ≠ id → ¬ r.session.Writes S k)
    (io : Io) : Follows S (w.addClient S fd r (.request w.next fd port d e) io) id k t := by
  obtain ⟨hrid, -⟩ := acceptClient_session hr
  have hown : (w.addClient S fd r (.request w.next fd port d e) io).own id =
      if id = w.next then [.request w.next fd port d e, .sweep io] else w.own id := own_addClient hu _ io id
  have hsent : (w.addClient S fd r (.request w.next fd port d e) io).sent =
      Function.update w.sent w.next (w.sent w.next ++ r.sends) := rfl
  have hclients : (w.addClient S fd r (.request w.next fd port d e) io).clients =
      if r.more then w.clients ++ [r.session] else w.clients := rfl
  have hmark {j : Nat} {c : Session}
      (hj : (w.addClient S fd r (.request w.next fd port d e) io).clients[j]? = some c) :
      (w.addClient S fd r (.request w.next fd port d e) io).marks[j]? = some true :=
    List.getElem?_replicate_of_lt (List.getElem?_eq_some_iff.mp hj).1
  by_cases hid : w.next = id
  · subst hid
    have hstage := h.stage.unborn hfresh (Nat.le_refl _)
    refine ⟨_, .inr (.request hstage h.file hr io), ?_, ?_, ?_, rfl⟩
    · simp only [Course.open_]
      cases hmore : r.more with
      | true =>
        have hj : (w.addClient S fd r (.request w.next fd port d e) io).clients[w.clients.length]? =
            some r.session := by
          rw [hclients, if_pos hmore, List.getElem?_concat_length]
        exact ⟨hrid, _, hj, hmark hj⟩
      | false =>
        refine ⟨Nat.lt_succ_self _, fun hm => ?_⟩
        rw [hclients, if_neg (by simp [hmore])] at hm
        obtain ⟨c, hc, hcid⟩ := List.mem_map.mp hm
        exact absurd (hfresh c hc) (by omega)
    · rw [hown, if_pos rfl]
      have hevents : [] = t.events := (hu w.next (Nat.le_refl _)).1.symm.trans h.events
      exact congrArg (· ++ [.request w.next fd port d e, .sweep io]) hevents
    · rw [hsent, Function.update_self, h.sent]
      rfl
  · have hfile : (if r.more then r.files else r.session.destroy S r.files io) k = w.files k := by
      split
      · exact opened_frame hr (hnot hid)
      · exact (Session.destroy_frame (hnot hid) io).trans (opened_frame hr (hnot hid))
    refine ⟨t, .inl rfl, ?_, ?_, ?_, hfile.trans h.file⟩
    · have hstage := h.stage
      revert hstage
      cases t.stage with
      | unborn => exact fun hstage => Nat.lt_of_le_of_ne hstage hid
      | going c =>
        rintro ⟨hcid, j, hj, -⟩
        have hj' : (w.addClient S fd r (.request w.next fd port d e) io).clients[j]? = some c := by
          rw [hclients]
          split
          · exact (List.getElem?_append_left (List.getElem?_eq_some_iff.mp hj).1).trans hj
          · exact hj
        exact ⟨hcid, j, hj', hmark hj'⟩
      | ended c =>
        rintro ⟨-, j, -, hb⟩
        rw [World.marks_accepting hphase] at hb
        cases List.eq_of_mem_replicate (List.mem_of_getElem? hb)
      | gone =>
        rintro ⟨hlt, hmem⟩
        refine ⟨Nat.lt_succ_of_lt hlt, fun hm => ?_⟩
        obtain ⟨c, hc, hcid⟩ := List.mem_map.mp hm
        rcases mem_addClient.mp hc with hc | ⟨-, rfl⟩
        · exact hmem (hcid ▸ List.mem_map_of_mem hc)
        · exact hid (hrid.symm.trans hcid)
    · rw [hown, if_neg (Ne.symm hid)]
      exact h.events
    · rw [hsent, Function.update_of_ne (Ne.symm hid)]
      exact h.sent

/-! ## What every step does to the vector and the log -/

/-- Nothing, or one session has handled a datagram, or all have come to the end of a
round, or there is a new one. -/
inductive Change (S : Setup K) (w w' : World K) : Prop
  | quiet : w'.clients = w.clients → w'.log = w.log → w'.sent = w.sent → w'.next = w.next → Change S w w'
  | handled {i : Nat} {c : Session} {d : Datagram} {e : Env} : w.clients[i]? = some c →
      w'.clients = w.clients.set i (c.handlePacket S w.files d e).session →
      w'.log = w.log ++ [(c.id, .datagram d e)] →
      w'.sent = Function.update w.sent c.id (w.sent c.id ++ (c.handlePacket S w.files d e).sends) →
      w'.next = w.next → Change S w w'
  | swept {io : Nat → Io} : w'.clients ⊆ w.clients →
      w'.log = w.log ++ (w.clients.map fun c => (c.id, .sweep (io c.id))) → w'.sent = w.sent → w'.next = w.next →
      Change S w w'
  | opened {w₁ : World K} {fd : Nat} {port : UInt16} {d : Datagram} {e : Env} {r : Reply K} {io : Io} :
      w' = w₁.addClient S fd r (.request w₁.next fd port d e) io →
      S.acceptClient w₁.files w₁.next fd port d e = some (.opened r) →
      w₁.clients = w.clients → w₁.log = w.log → w₁.sent = w.sent → w₁.next = w.next → Change S w w'

theorem step_change {l : Label} (hs : w.step S l = some w') : Change S w w' := by
  cases l with
  | arrive fd d =>
    obtain ⟨queue, -, rfl⟩ := Option.map_eq_some_iff.mp hs
    exact .quiet rfl rfl rfl rfl
  | poll ready pollTime =>
    simp only [World.step, World.poll] at hs
    split at hs
    · cases hs
      exact .quiet rfl rfl rfl rfl
    · cases hs
  | visit e =>
    simp only [World.step, World.visit] at hs
    split at hs
    · split at hs
      · rename_i hc
        split at hs
        · obtain ⟨⟨d, w₁⟩, hrecv, rfl⟩ := Option.map_eq_some_iff.mp hs
          obtain ⟨queue, -, rfl⟩ := recv_some hrecv
          exact .handled hc rfl rfl rfl rfl
        · cases hs
          exact .quiet rfl rfl rfl rfl
      · cases hs
    · cases hs
  | compact io =>
    simp only [World.step, World.compact] at hs
    split at hs
    · split at hs
      · cases hs
      · cases hs
        refine .swept (fun c hc => ?_) rfl rfl rfl
        obtain ⟨x, hx, rfl⟩ := List.mem_map.mp hc
        exact (List.of_mem_zip (List.mem_filter.mp hx).1).1
    · cases hs
  | accept fd port e io =>
    obtain ⟨b, -, rfl | ⟨d, w₁, hr, hs⟩⟩ := accept_cases hs
    · exact .quiet rfl rfl rfl rfl
    · obtain ⟨queue, -, rfl⟩ := recv_some hr
      obtain rfl | ⟨r, hr, -, rfl⟩ := hs
      · exact .quiet rfl rfl rfl rfl
      · exact .opened rfl hr rfl rfl rfl rfl

theorem Change.unborn (h : Change S w w') (hfresh : ∀ c ∈ w.clients, c.id < w.next) (hu : w.Unborn) :
    w'.Unborn := by
  have hne {c : Session} (hc : c ∈ w.clients) {i : Nat} (hi : w.next ≤ i) : c.id ≠ i := by
    have := hfresh c hc
    omega
  intro i hi
  cases h with
  | quiet hclients hlog hsent hnext =>
    rw [World.own, hlog, hsent]
    exact hu i (hnext ▸ hi)
  | handled hc hclients hlog hsent hnext =>
    have hi := hne (List.mem_of_getElem? hc) (hnext ▸ hi)
    rw [World.own, hlog, hsent, ownEvents_append, ownEvents_ne hi, ownEvents_nil, List.append_nil,
      Function.update_of_ne (Ne.symm hi)]
    exact hu i (by omega)
  | swept hclients hlog hsent hnext =>
    have hmem : i ∉ w.clients.map (·.id) := fun hm => by
      obtain ⟨c, hc, hid⟩ := List.mem_map.mp hm
      exact hne hc (hnext ▸ hi) hid
    rw [World.own, hlog, hsent, ownEvents_append, ownEvents_sweeps _ hmem, List.append_nil]
    exact hu i (hnext ▸ hi)
  | @opened w₁ fd port d e r io heq hr hclients hlog hsent hnext =>
    subst heq
    have hu₁ : w₁.Unborn := fun i hi => by
      rw [World.own, hlog, hsent]
      exact hu i (hnext ▸ hi)
    have hi : w₁.next + 1 ≤ i := hi
    have hsent' : (w₁.addClient S fd r (.request w₁.next fd port d e) io).sent =
      Function.update w₁.sent w₁.next (w₁.sent w₁.next ++ r.sends) := rfl
    rw [own_addClient hu₁, if_neg (by omega), hsent', Function.update_of_ne (by omega)]
    exact hu₁ i (by omega)

/-- The log only grows. -/
theorem Change.opening (h : Change S w w') {i : Nat} {x : Endpoint × TRequestPacket} (hx : w.opening i = some x) :
    w'.opening i = some x := by
  have hgrow : ∃ more, w'.own i = w.own i ++ more := by
    cases h with
    | quiet hclients hlog hsent hnext => exact ⟨[], by rw [World.own, hlog, List.append_nil]; rfl⟩
    | handled hc hclients hlog hsent hnext => exact ⟨_, by rw [World.own, hlog, ownEvents_append]; rfl⟩
    | swept hclients hlog hsent hnext => exact ⟨_, by rw [World.own, hlog, ownEvents_append]; rfl⟩
    | @opened w₁ fd port d e r io heq hr hclients hlog hsent hnext =>
      subst heq
      refine ⟨ownEvents i ([(w₁.next, .request w₁.next fd port d e)] ++ [(w₁.next, .sweep io)]), ?_⟩
      change ownEvents i (w₁.log ++ _ ++ _) = _
      rw [List.append_assoc, ownEvents_append, hlog]
      rfl
  obtain ⟨more, hmore⟩ := hgrow
  obtain ⟨y, hy, hopener⟩ := Option.bind_eq_some_iff.mp hx
  rw [World.opening, hmore, List.head?_append, hy]
  exact hopener

theorem Change.spared (h : Change S w w') (hs : w'.Spared S id k) : w.Spared S id k :=
  fun id' src q hne ho hwrite => hs id' src q hne (h.opening ho) hwrite

/-- A new session writes what its request names. -/
theorem opened_foreign (hu : w.Unborn) {fd : Nat} {port : UInt16} {d : Datagram} {e : Env} {r : Reply K} {io : Io}
    (hr : S.acceptClient w.files w.next fd port d e = some (.opened r))
    (hs : (w.addClient S fd r (.request w.next fd port d e) io).Spared S id k) (hid : w.next ≠ id) :
    ¬ r.session.Writes S k := by
  obtain ⟨q, role, hq, hnew, rfl⟩ := acceptClient_opens hr
  rintro ⟨hrole, hk⟩
  refine hs w.next d.src q hid ?_ ((newClient_writing hnew).mp ((writing_handle _ _ _ _).mp hrole)) hk
  rw [World.opening, own_addClient hu, if_pos rfl]
  simp only [List.head?_cons, Option.bind_some, Happening.opener, hq]

theorem Change.foreign (h : Change S w w') (hu : w.Unborn) (hf : w.Foreign S id k) (hs : w'.Spared S id k) :
    w'.Foreign S id k := by
  intro c hc hid
  cases h with
  | quiet hclients hlog hsent hnext => exact hf c (hclients ▸ hc) hid
  | handled hget hclients hlog hsent hnext =>
    rw [hclients] at hc
    rcases List.mem_or_eq_of_mem_set hc with hc | rfl
    · exact hf c hc hid
    · exact fun hw => hf _ (List.mem_of_getElem? hget) hid ((Session.handlePacket_writes _ _).mp hw)
  | swept hclients hlog hsent hnext => exact hf c (hclients hc) hid
  | @opened w₁ fd port d e r io heq hr hclients hlog hsent hnext =>
    subst heq
    have hu₁ : w₁.Unborn := fun i hi => by
      rw [World.own, hlog, hsent]
      exact hu i (hnext ▸ hi)
    rcases mem_addClient.mp hc with hc | ⟨-, rfl⟩
    · exact hf c (hclients ▸ hc) hid
    · obtain ⟨hrid, -⟩ := acceptClient_session hr
      exact opened_foreign hu₁ hr hs (hrid ▸ hid)

theorem accept_shows (hu : w.Unborn) (hfresh : ∀ c ∈ w.clients, c.id < w.next) (h : Shows w id k t)
    {fd : Nat} {port : UInt16} {e : Env} {io : Io} (hs : w.accept S fd port e io = some w')
    (hspared : w'.Spared S id k) : Follows S w' id k t := by
  obtain ⟨b, hphase, hcases⟩ := accept_cases hs
  have hmarks := World.marks_accepting hphase
  obtain rfl | ⟨d, w₁, hr, hs⟩ := hcases
  · exact h.of_eq rfl hmarks.symm rfl rfl rfl rfl
  · obtain ⟨queue, hq, rfl⟩ := recv_some hr
    obtain rfl | ⟨r, hr, hfd, rfl⟩ := hs
    · exact h.of_eq rfl hmarks.symm rfl rfl rfl rfl
    · -- what waits on the request socket does not show
      have hu₁ : World.Unborn { w with sockets := Function.update w.sockets S.requests (some queue) } := hu
      have h₁ : Shows { w with sockets := Function.update w.sockets S.requests (some queue) } id k t :=
        ⟨h.stage.of_eq rfl rfl rfl, h.events, h.sent, h.file⟩
      exact addClient_shows hu₁ hfresh h₁ hphase hr (opened_foreign hu₁ hr hspared) io

/-! ## The result -/

/-- Step lemma. -/
theorem step_shows (hu : w.Unborn) (ho : Owned S w) (hf : w.Foreign S id k) (h : Shows w id k t) {l : Label}
    (hs : w.step S l = some w') (hspared : w'.Spared S id k) : Follows S w' id k t := by
  cases l with
  | arrive fd d => exact arrive_shows h hs
  | poll ready pollTime => exact poll_shows h hs
  | visit e => exact visit_shows ho hf h hs
  | compact io => exact compact_shows ho hf h hs
  | accept fd port e io => exact accept_shows hu ho.fresh h hs hspared

theorem unborn_reachable (h : (server S).Reachable w) : w.Unborn := by
  have hind : (server S).Inductive fun w => (server S).Reachable w ∧ w.Unborn := by
    refine ⟨fun w hw => ⟨.of_init hw, ?_⟩, fun w l w' hw hs => ⟨hw.1.next hs, ?_⟩⟩
    · exact hw ▸ fun _ _ => ⟨rfl, rfl⟩
    · exact (step_change hs).unborn (owned_reachable hw.1).fresh hw.2
  exact (hind.reachable w h).2

/-- Run lemma. -/
theorem shows_reachable (h : (server S).Reachable w) (hspared : w.Spared S id k) :
    w.Foreign S id k ∧ ∃ t, (course S id k).Reachable t ∧ Shows w id k t := by
  have hind : (server S).Inductive fun w => (server S).Reachable w ∧ (w.Spared S id k → w.Foreign S id k ∧
      ∃ t, (course S id k).Reachable t ∧ Shows w id k t) := by
    refine ⟨fun w hw => ⟨.of_init hw, fun _ => ?_⟩, fun w l w' hw hs => ⟨hw.1.next hs, fun hspared' => ?_⟩⟩
    · subst hw
      exact ⟨fun c hc => absurd hc List.not_mem_nil, _, .of_init rfl, Nat.zero_le _, rfl, rfl, rfl⟩
    · have hchange := step_change hs
      have hu := unborn_reachable hw.1
      obtain ⟨hf, t, ht, hshows⟩ := hw.2 (hchange.spared hspared')
      obtain ⟨t', hstep, hshows'⟩ := step_shows hu (owned_reachable hw.1) hf hshows hs hspared'
      refine ⟨hchange.foreign hu hf hspared', t', ?_, hshows'⟩
      rcases hstep with rfl | hstep
      · exact ht
      · exact ht.next (l := ()) hstep
  exact (hind.reachable w h).2 hspared

/-- **One session among the others.** In every run of the server, timeouts included, in
which no other session has been asked to write the file: the session and the file go
through a run of the session alone. -/
theorem course_reachable (h : (server S).Reachable w) (hspared : w.Spared S id k) :
    ∃ t, (course S id k).Reachable t ∧ Shows w id k t := (shows_reachable h hspared).2

/-! ### Two sessions at a time -/

theorem twoRun_openings : twoRun.map (fun w => (w.next, w.opening 0, w.opening 1)) =
    some (2, some (reader, ⟨.read, [0x61], .octet⟩), some (writer, ⟨.write, [0x62], .octet⟩)) := by decide +kernel

theorem twoRun_reachable {w : World Bytes} (h : twoRun = some w) : (server twoSetup).Reachable w := by
  have hr : (untimed twoSetup).Reachable w :=
    ⟨_, rfl, LTS.reach_of_runFn (fun _ _ h => by simpa using h) h⟩
  exact hr.of_restrict

theorem twoRun_spared {w : World Bytes} (h : twoRun = some w) (id : Nat) (k : Bytes) (hk : id = 1 ∨ k ≠ [0x62]) :
    w.Spared twoSetup id k := by
  have hopenings := twoRun_openings
  rw [h] at hopenings
  obtain ⟨hnext, hopenings⟩ := Prod.mk.inj (Option.some.inj hopenings)
  obtain ⟨h0, h1⟩ := Prod.mk.inj hopenings
  intro id' src q hne ho hwrite
  match id' with
  | 0 =>
    obtain ⟨-, rfl⟩ := Prod.mk.inj (Option.some.inj (h0.symm.trans ho))
    cases hwrite
  | 1 =>
    obtain ⟨-, rfl⟩ := Prod.mk.inj (Option.some.inj (h1.symm.trans ho))
    exact fun heq => (hk.resolve_left (Ne.symm hne)) heq.symm
  | n + 2 =>
    have hown := (unborn_reachable (twoRun_reachable h) (n + 2) (by rw [hnext]; omega)).1
    rw [World.opening, hown] at ho
    cases ho

/-- The writer's course: all of it, as its session has ended. -/
def writerCourse : Course where
  stage := .gone
  events := [.request 1 5 1070 ⟨writer, TPacket.toBytes (.request ⟨.write, [0x62], .octet⟩)⟩ calm, .sweep calm.io,
    .datagram ⟨writer, TPacket.toBytes (.data ⟨1, [0x78]⟩)⟩ calm, .sweep calm.io]
  sent := [(writer, .ack ⟨0⟩), (writer, .ack ⟨1⟩)]
  file := some (.ofBytes [0x78])

theorem twoRun_writer : twoRun.map (fun w => (w.own 1, w.clients.map (·.id))) =
    some (writerCourse.events, [0]) := by decide +kernel

theorem course_reachable_two : ∃ w : World Bytes, w.opening 1 = some (writer, ⟨.write, [0x62], .octet⟩) ∧
    (course twoSetup 1 [0x62]).Reachable writerCourse ∧ Shows w 1 [0x62] writerCourse := by
  obtain ⟨w, hw, hopenings⟩ := Option.map_eq_some_iff.mp twoRun_openings
  obtain ⟨hnext, hopenings⟩ := Prod.mk.inj hopenings
  have hwriter := twoRun_writer
  have hsent := twoRun_sent
  rw [hw, Option.map_some, Option.some.injEq] at hwriter hsent
  obtain ⟨hevents, hids⟩ := Prod.mk.inj hwriter
  obtain ⟨-, hsent, hfile⟩ := of_decide_eq_true hsent
  obtain ⟨t, ht, hshows⟩ := course_reachable (twoRun_reachable hw) (twoRun_spared hw 1 [0x62] (.inl rfl))
  -- only the session 0 is left
  have hout {c : Session} (hid : c.id = 1) {j : Nat} (hc : w.clients[j]? = some c) : False := by
    have hmem : (1 : Nat) ∈ w.clients.map (·.id) := hid ▸ List.mem_map_of_mem (List.mem_of_getElem? hc)
    rw [hids] at hmem
    cases List.mem_singleton.mp hmem
  have hstage : t.stage = .gone := by
    have h := hshows.stage
    cases hs : t.stage with
    | unborn =>
      rw [hs] at h
      exact absurd (hnext ▸ h : (2 : Nat) ≤ 1) (by decide)
    | going c =>
      obtain ⟨hid, j, hc, -⟩ := (hs ▸ h : w.Stands 1 (.going c))
      exact (hout hid hc).elim
    | ended c =>
      obtain ⟨hid, j, hc, -⟩ := (hs ▸ h : w.Stands 1 (.ended c))
      exact (hout hid hc).elim
    | gone => rfl
  obtain rfl : t = writerCourse := by
    cases t
    obtain rfl : _ = Stage.gone := hstage
    obtain rfl : _ = writerCourse.events := hshows.events.symm.trans hevents
    obtain rfl : _ = writerCourse.sent := hshows.sent.symm.trans hsent
    obtain rfl : _ = writerCourse.file := hshows.file.symm.trans hfile
    rfl
  exact ⟨w, (Prod.mk.inj hopenings).2, ht, hshows⟩

end NetworksLab.L5.TftpPoll

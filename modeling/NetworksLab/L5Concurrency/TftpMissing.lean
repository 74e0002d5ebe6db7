import NetworksLab.L5Concurrency.TftpWireDownload

/-!
# Downloads of a file that does not exist

`AcceptClient` makes a session for the request all the same. Its visitor does not
find the file, and the session ends with an error packet, sent from its own port.
The packet goes through (`arrives_plain`), and `Read` throws what it says.

Results:
* `missing_safe`: over any network, `Read` writes nothing and does not return, and
  no session is left.
* `missing_reported_iff`: over a reliable network, `Read` throws "File not found" if
  the name can be looked up; otherwise the server ends.
-/
namespace NetworksLab.L5.TftpNet
open NetworksLab.L1.Packet NetworksLab.L1.TextFields NetworksLab.L2.Stream NetworksLab.L3.Tftp

def notFound : TErrorPacket := .make .fileNotFound []

/-- What `Read` throws when it gets it. -/
def notFoundError : Bytes := ascii "Server: File not found"

structure MissingInv (p : Parties Read) : Prop where
  out : p.client.out = []
  status : p.client.status = .running ∧ p.client.serverPort = 0 ∨
    p.client.status = .threw timeoutError ∨ p.client.status = .threw notFoundError
  sessions : ∀ s ∈ p.sessions, s.alive = false

/-- The packets of such a download. -/
def MissingPacket (S : Setup) (filename : Bytes) (d : Datagram) : Prop :=
  match d.packet with
  | .request r => d.dst = S.main ∧ r = ⟨.read, filename, .octet⟩
  | .error e => e = notFound
  | _ => False

variable {S : Setup} {filename : Bytes}

theorem MissingPacket.arrives (hname : Named filename) {d : Datagram} (h : MissingPacket S filename d) :
    d.Readable ∧ d.arrives = d := by
  obtain ⟨src, dst, packet⟩ := d
  cases packet with
  | request r =>
    obtain ⟨-, rfl⟩ := h
    have hrecv := arrives_named src dst hname .read
    exact ⟨⟨_, hrecv⟩, Datagram.arrives_eq hrecv⟩
  | error e =>
    obtain rfl : e = notFound := h
    have hrecv := arrives_plain src dst fileNotFound_plain
    exact ⟨⟨_, hrecv⟩, Datagram.arrives_eq hrecv⟩
  | data b => exact h.elim
  | ack k => exact h.elim

theorem receive_notFound {s : Read} (hport : s.serverPort = 0) (src : Endpoint) :
    s.receive ⟨src, .ok (.error notFound)⟩ =
      ({ s with serverPort := src.port, status := .threw notFoundError }, []) := by
  simp only [Read.receive, hport, TReceiveResult.transferID, ne_eq, not_true_eq_false, false_and, if_false,
    Expecting.visit]
  rfl

/-- The session that the request opens has ended. -/
theorem accept_missing (hF : S.files filename = none) (io : Io) (port : UInt16) (src : Endpoint) :
    ∃ role, acceptClient S.files io port ⟨src, .ok (.request ⟨.read, filename, .octet⟩)⟩ =
      .opened ⟨src, port, role⟩ [(src, .error notFound)] false := by
  refine ⟨.reading ⟨0, .octet ((S.files filename).getD .unopened)⟩, ?_⟩
  simp only [acceptClient, Expecting.visit, requestVisitor, newClient, Role.handle, TReadingClientBase.handle,
    TReadingClientBase.visitor, hF, Option.isSome_none, Bool.false_eq_true, if_false]
  rfl

theorem missing_receive (hF : S.files filename = none) {p : Parties Read} {d : Datagram} {a : Arrival}
    {r : Parties Read × List Datagram} (hp : MissingInv p) (hd : MissingPacket S filename d)
    (hr : Reception S readTransfer p d a r) :
    MissingInv r.1 ∧ ∀ q ∈ r.2, MissingPacket S filename q := by
  obtain ⟨src, dst, packet⟩ := d
  cases hr with
  | lost => exact ⟨hp, by simp⟩
  | client hme hrun =>
    have hrun : p.client.status = .running := hrun
    have hport : p.client.serverPort = 0 := by
      rcases hp.status with ⟨-, h⟩ | h | h
      · exact h
      · rw [hrun] at h; cases h
      · rw [hrun] at h; cases h
    cases packet with
    | request r => exact absurd (hme.symm.trans hd.1) S.me_ne
    | error e =>
      obtain rfl : e = notFound := hd
      simp only [readTransfer, receive_notFound hport]
      exact ⟨⟨hp.out, .inr (.inr rfl), hp.sessions⟩, by simp [Setup.fromClient]⟩
    | data b => exact hd.elim
    | ack k => exact hd.elim
  | refused hmain ha =>
    cases packet with
    | request r =>
      obtain ⟨-, rfl⟩ := hd
      obtain ⟨role, hacc⟩ := accept_missing hF a.io a.port src
      rw [hacc] at ha
      cases ha
    | error e =>
      cases ha
      exact ⟨hp, by simp [sendFrom]⟩
    | data b => exact hd.elim
    | ack k => exact hd.elim
  | opened hmain hfree ha =>
    cases packet with
    | request r =>
      obtain ⟨-, rfl⟩ := hd
      obtain ⟨role, hacc⟩ := accept_missing hF a.io a.port src
      rw [hacc] at ha
      cases ha
      refine ⟨⟨hp.out, hp.status, fun s hs => ?_⟩, fun q hq => ?_⟩
      · rcases List.mem_append.mp hs with hs | hs
        · exact hp.sessions s hs
        · obtain rfl := List.mem_singleton.mp hs
          rfl
      · obtain rfl := List.mem_singleton.mp hq
        rfl
    | error e => cases ha
    | data b => exact hd.elim
    | ack k => exact hd.elim
  | @session xs ys s hmain hl hsplit =>
    have hdead := hp.sessions s (by simp [hsplit])
    exact absurd (hdead.symm.trans hl.1) Bool.false_ne_true

theorem missing_timeout {p : Parties Read} {t : Timeout} {r : Parties Read × List Datagram}
    (hp : MissingInv p) (hr : timeout readTransfer p t = some r) : MissingInv r.1 ∧ r.2 = [] := by
  cases t with
  | client =>
    simp only [timeout, Option.ite_none_right_eq_some, Option.some.injEq] at hr
    obtain ⟨-, rfl⟩ := hr
    exact ⟨⟨hp.out, .inr (.inl rfl), hp.sessions⟩, rfl⟩
  | session j =>
    obtain ⟨s, hs, rfl⟩ := Option.map_eq_some_iff.mp hr
    refine ⟨⟨hp.out, hp.status, fun t ht => ?_⟩, rfl⟩
    rcases List.mem_or_eq_of_mem_set ht with ht | rfl
    · exact hp.sessions t ht
    · rfl

/-! ## Every run -/

theorem missing_carries (S : Setup) (hname : Named filename) :
    (process S readTransfer).Carries (rawProcess S readTransfer) Datagram.send Datagram.arrives
      (fun _ => MissingPacket S filename) :=
  carries S readTransfer fun hd => (hd.arrives hname).1

theorem missing_arriving (hF : S.files filename = none) (hname : Named filename) :
    (process S readTransfer).ArrivingInvariant Datagram.arrives MissingInv
      (fun _ => MissingPacket S filename) where
  receive hp hd hr := by
    rw [(hd.arrives hname).2] at hr
    obtain ⟨h, hs⟩ := missing_receive hF hp hd (receive_reception hr)
    exact ⟨h, fun _ h => h, hs⟩
  act hp hr := by
    obtain ⟨h, hs⟩ := missing_timeout hp hr
    exact ⟨h, fun _ h => h, by simp [hs]⟩

theorem missing_start (S : Setup) (filename : Bytes) : Process.Holds MissingInv
    (fun _ => MissingPacket S filename) (start S (Read.start S.port filename)) := by
  refine ⟨⟨rfl, .inl ⟨rfl, rfl⟩, by simp [start]⟩, fun d hd => ?_⟩
  obtain rfl := List.mem_singleton.mp hd
  exact ⟨rfl, rfl⟩

/-- **Nothing is written.** Over any network, `Read` on a file that the server does
not have leaves its output empty and never returns: it waits, or has thrown a
timeout or what the server said. No session stays behind. -/
theorem missing_safe (hF : S.files filename = none) (hname : Named filename)
    {w : World (Parties Read) RawDatagram} (h : (wireDownload S filename).Reachable w) :
    w.state.client.out = [] ∧ (w.state.client.status = .running ∨
      w.state.client.status = .threw timeoutError ∨ w.state.client.status = .threw notFoundError) ∧
      ∀ s ∈ w.state.sessions, s.alive = false := by
  have hinv := (missing_carries S hname).invariant (missing_arriving hF hname)
  obtain ⟨h0, hnet⟩ := missing_start S filename
  have hstart : Process.Holds MissingInv (Process.Encodes Datagram.send fun _ => MissingPacket S filename)
      (Process.encodedWorld Datagram.send (start S (Read.start S.port filename))) := by
    refine ⟨h0, fun b hb => ?_⟩
    obtain ⟨d, hd, rfl⟩ := List.mem_map.mp hb
    exact ⟨d, rfl, hnet d hd⟩
  obtain ⟨hout, hstatus, hsessions⟩ := (hinv.reachable hstart h).1
  exact ⟨hout, hstatus.imp_left And.left, hsessions⟩

/-- The request for another file has been answered. -/
theorem missing_safe_g : ∃ w, (wireDownload hiSetup (ascii "g")).Reachable w ∧
    w.state.sessions.length = 1 ∧ w.state.client.out = [] ∧ ∀ s ∈ w.state.sessions, s.alive = false := by
  have hrun : ((LTS.runFn (rawProcess hiSetup readTransfer).stepFn (fun _ _ => true)
      (Process.encodedWorld Datagram.send (start hiSetup (Read.start 69 (ascii "g"))))
      [.deliver 0 ⟨1024, ⟨true, .stores⟩⟩]).map fun w => w.state.sessions.length) = some 1 := by
    decide +kernel
  obtain ⟨w, hw, hs⟩ := Option.map_eq_some_iff.mp hrun
  have hreach : (wireDownload hiSetup (ascii "g")).Reachable w := Process.reachable_of_run hw
  obtain ⟨hout, -, hdead⟩ := missing_safe (by decide) (by constructor <;> decide) hreach
  exact ⟨w, hreach, hs, hout, hdead⟩

/-! ## Reliable networks -/

/-- The answer is delivered. -/
theorem eventually_notFound {s : Read} (hrun : s.status = .running) (hport : s.serverPort = 0)
    (hout : s.out = []) (sessions : List Session) (src : Endpoint) :
    ((process S readTransfer).inOrder Datagram.route (start S (Read.start S.port filename))).Eventually
      (fun w => w.state.client.status = .threw notFoundError ∧ w.state.client.out = [])
      ⟨⟨s, sessions⟩, [⟨src, S.me, .error notFound⟩]⟩ := by
  have hstep (e : Arrival) : receive S readTransfer ⟨s, sessions⟩ ⟨src, S.me, .error notFound⟩ e =
      some (⟨{ s with serverPort := src.port, status := .threw notFoundError }, sessions⟩, []) := by
    rw [receive_client rfl hrun]
    simp only [readTransfer, receive_notFound hport, Setup.fromClient, List.map_nil]
  exact Process.eventually_reacts ⟨0, ⟨true, .stores⟩⟩ hstep fun _ => .now ⟨rfl, hout⟩

theorem eventually_missing (hF : S.files filename = none) :
    ((process S readTransfer).inOrder Datagram.route (start S (Read.start S.port filename))).Eventually
      (fun w => w.state.client.status = .threw notFoundError ∧ w.state.client.out = [])
      (start S (Read.start S.port filename)) := by
  let s := (Read.start S.port filename).1
  have hstep (a : Arrival) : ∃ role, receive S readTransfer ⟨s, []⟩
      ⟨S.me, S.main, .request ⟨.read, filename, .octet⟩⟩ a =
        if S.Free ⟨s, []⟩ a.port then
          some (⟨s, [⟨⟨S.me, a.port, role⟩, false⟩]⟩, [⟨⟨S.host, a.port⟩, S.me, .error notFound⟩])
        else none := by
    obtain ⟨role, hacc⟩ := accept_missing hF a.io a.port S.me
    refine ⟨role, ?_⟩
    rw [receive_request rfl, receiveRequest]
    simp only [hacc]
    rfl
  apply Process.eventually_deliver
  · obtain ⟨port, hfree⟩ := exists_free S s
    obtain ⟨role, hr⟩ := hstep ⟨port, ⟨true, .stores⟩⟩
    exact ⟨_, Option.isSome_of_eq_some (hr.trans (if_pos hfree))⟩
  · intro a r hr
    obtain ⟨role, hr'⟩ := hstep a
    have hsome := hr'.symm.trans hr
    split at hsome
    · obtain rfl := Option.some.inj hsome
      exact eventually_notFound rfl rfl rfl _ _
    · cases hsome

/-- As long as the server is there, `Read` throws what it says about the file. -/
theorem missing_reported (hF : S.files filename = none) (hname : Named filename) :
    (reliableWireDownload S filename).Eventually
      (fun w => w.state.client.status = .threw notFoundError ∧ w.state.client.out = [])
      (Process.encodedWorld Datagram.send (start S (Read.start S.port filename))) :=
  (missing_carries S hname).eventually (missing_arriving hF hname) (fun _ hd => (hd.arrives hname).2)
    (fun _ => rfl) (fun _ h => h) (missing_start S filename) (eventually_missing hF)

/-! ## Names that cannot be looked up

`std::filesystem::exists` is the overload that throws, as it does with a name that is
too long for the file system or behind a directory that may not be searched. Nothing
catches that, and the server ends. -/

def Role.reads : Role → Bool
  | .reading _ => true
  | .writing _ => false

/-- The name that the server looks up for a datagram.
mirrors udp/lib/Server.cpp:64-73 -/
def looksUp {σ : Type} (S : Setup) (p : Parties σ) (d : RawDatagram) : Option Bytes :=
  match d.receive.packet with
  | .ok (.request r) =>
    if d.dst = S.main then if r.type = .read then some r.filename else none
    else if p.sessions.any fun s => decide (s.Listens S d.dst) && Role.reads s.client.role then some r.filename
    else none
  | _ => none

/-- The client and a server that ends when it looks up one of the names that throw. -/
def lookingProcess (S : Setup) (throws : Bytes → Bool) : Process (Parties Read × Bool) RawDatagram Arrival Timeout :=
  (rawProcess S readTransfer).ending (fun d => d.dst ≠ S.me) fun p d => (looksUp S p d).any throws = true

/-- The request is in flight, and the server is there. -/
def asked (S : Setup) (filename : Bytes) : World (Parties Read × Bool) RawDatagram :=
  Process.whole (Process.encodedWorld Datagram.send (start S (Read.start S.port filename)))

/-- Its runs over a network that delivers every datagram once and in order. -/
def reliableLookingDownload (S : Setup) (throws : Bytes → Bool) (filename : Bytes) :
    LTS (World (Parties Read × Bool) RawDatagram) (NetLabel Arrival Timeout) :=
  (lookingProcess S throws).inOrder RawDatagram.route (asked S filename)

/-- `Read` has thrown what the server says, with nothing written. -/
def Reported (w : World (Parties Read × Bool) RawDatagram) : Prop :=
  w.state.1.client.status = .threw notFoundError ∧ w.state.1.client.out = []

theorem looksUp_request {σ : Type} (S : Setup) (p : Parties σ) (src : Endpoint) (hname : Named filename) :
    looksUp S p (Datagram.send ⟨src, S.main, .request ⟨.read, filename, .octet⟩⟩) = some filename := by
  have hdst : (Datagram.send ⟨src, S.main, .request ⟨.read, filename, .octet⟩⟩).dst = S.main := rfl
  simp only [looksUp, arrives_named src S.main hname .read, hdst, if_true]

/-- Of the packets of such a download, only the request is looked up. -/
theorem MissingPacket.looked {σ : Type} {p : Parties σ} (hname : Named filename) {d : Datagram}
    (h : MissingPacket S filename d) : looksUp S p d.send = none ∨ looksUp S p d.send = some filename := by
  obtain ⟨hread, harr⟩ := h.arrives hname
  have hrecv : d.send.receive.packet = .ok d.packet := by
    rw [hread.receive, harr]
  obtain ⟨src, dst, packet⟩ := d
  cases packet with
  | request r =>
    obtain ⟨hdst, rfl⟩ := h
    obtain rfl : dst = S.main := hdst
    exact .inr (looksUp_request S p src hname)
  | error e =>
    refine .inl ?_
    simp only [looksUp, hrecv]
  | data b => exact h.elim
  | ack k => exact h.elim

/-- When the name throws, the server ends at the request, and `Read` hears nothing. -/
theorem unreported_invariant {throws : Bytes → Bool} (hname : Named filename) (hthrows : throws filename = true) :
    (lookingProcess S throws).Invariant (fun s => s.1.client.status ≠ .threw notFoundError)
      fun _ d => d = Datagram.send ⟨S.me, S.main, .request ⟨.read, filename, .octet⟩⟩ where
  receive := by
    rintro s _ e r hs rfl hr
    have hends : S.main ≠ S.me ∧ (s.2 = false ∨ (looksUp S s.1
        (Datagram.send ⟨S.me, S.main, .request ⟨.read, filename, .octet⟩⟩)).any throws = true) :=
      ⟨S.me_ne.symm, .inr (by rw [looksUp_request S s.1 S.me hname]; exact hthrows)⟩
    obtain rfl := Option.some.inj ((if_pos hends).symm.trans hr)
    exact ⟨hs, fun _ h => h, by simp⟩
  act := by
    intro s t r hs hr
    obtain ⟨r', hr', rfl⟩ := Option.map_eq_some_iff.mp hr
    obtain ⟨r'', hr'', rfl⟩ := Option.map_eq_some_iff.mp hr'
    cases t with
    | client =>
      simp only [timeout, Option.ite_none_right_eq_some, Option.some.injEq] at hr''
      obtain ⟨-, rfl⟩ := hr''
      refine ⟨fun h => absurd (Status.threw.inj h) (by decide), fun _ h => h, by simp [Process.encoded]⟩
    | session j =>
      obtain ⟨c, -, rfl⟩ := Option.map_eq_some_iff.mp hr''
      exact ⟨hs, fun _ h => h, by simp [Process.encoded]⟩

/-- **When the error is reported.** Over a reliable network, `Read` on a file that the
server does not have is bound to throw what the server says about it, exactly when the
name can be looked up. -/
theorem missing_reported_iff (hF : S.files filename = none) (hname : Named filename) (throws : Bytes → Bool) :
    (reliableLookingDownload S throws filename).Eventually Reported (asked S filename) ↔
      throws filename = false := by
  constructor
  · intro h
    by_contra hthrows
    refine LTS.not_eventually_of_unreachable rfl (fun w hw hrep => ?_) h
    have hinv := unreported_invariant (S := S) hname (eq_true_of_ne_false hthrows)
    have hstart : Process.Holds (fun s : Parties Read × Bool => s.1.client.status ≠ .threw notFoundError)
        (fun _ d => d = Datagram.send ⟨S.me, S.main, .request ⟨.read, filename, .octet⟩⟩) (asked S filename) :=
      ⟨Status.noConfusion, fun d hd => List.mem_singleton.mp hd⟩
    exact (hinv.reachable hstart hw.of_restrict).1 hrep.1
  · intro hlooks
    have hinv := (missing_carries S hname).invariant (missing_arriving hF hname)
    obtain ⟨h0, hnet⟩ := missing_start S filename
    refine Process.ending_eventually hinv (fun _ hm hfatal => ?_) (fun w hw => hw) ⟨h0, fun b hb => ?_⟩
      (missing_reported hF hname)
    · obtain ⟨d, rfl, hd⟩ := hm
      rcases hd.looked hname with hnone | hsome
      · rw [hnone] at hfatal
        cases hfatal
      · rw [hsome, Option.any_some, hlooks] at hfatal
        cases hfatal
    · obtain ⟨d, hd, rfl⟩ := List.mem_map.mp hb
      exact ⟨d, rfl, hnet d hd⟩

/-- A name that is too long for the file system. -/
def longName : Bytes := List.replicate 256 0x67

theorem longName_named : Named longName where
  nul h := absurd (List.eq_of_mem_replicate h) (by decide)
  cr h := absurd (List.eq_of_mem_replicate h) (by decide)
  short := by
    rw [wireLength, longName, List.length_replicate, List.count_eq_zero_of_not_mem fun h =>
      absurd (List.eq_of_mem_replicate h) (by decide)]
    decide

def tooLong (name : Bytes) : Bool := decide (255 < name.length)

theorem missing_reported_iff_g :
    (reliableLookingDownload hiSetup tooLong (ascii "g")).Eventually Reported (asked hiSetup (ascii "g")) ∧
    ¬ (reliableLookingDownload hiSetup tooLong longName).Eventually Reported (asked hiSetup longName) := by
  have hlong : tooLong longName = true := by
    rw [tooLong, longName, List.length_replicate]
    rfl
  refine ⟨?_, fun h => ?_⟩
  · exact (missing_reported_iff (S := hiSetup) (by decide) (by constructor <;> decide) tooLong).mpr (by decide)
  · have hlooks := (missing_reported_iff (S := hiSetup) rfl longName_named tooLong).mp h
    rw [hlong] at hlooks
    cases hlooks

end NetworksLab.L5.TftpNet

import SimpleServer.Foundations.Channel
import SimpleServer.WebSocket.Delivery
import SimpleServer.WebSocket.WholeFrames

/-!
# All clients together

Clients are accepted, answered and registered, each of them sends frames, and every call of
`notify_message_request` reads from one of them and sends to all. A `Chat` is the server with the
bytes that the clients have still on their way, in any interleaving of accepted connections,
handshakes, arriving pieces and calls.

What the server is for is a channel with one order of messages. `represents_of_reached` says that
every run in which each call finds a whole frame follows a run of the channel: the calls of `send`
on a client are the answer to its handshake and then the posts since it joined, and the posts of
each client are its frames in their order, none lost and none twice. So any two clients have been
sent their messages in one order (`one_order_of_reached`).
-/

namespace SimpleServer

open Cxx Inbox Posix Rfc6455 Runs Broadcast

/-- The server, and the bytes of each client that are still on their way. -/
structure Chat where
  feed : Feed
  pending : ℤ → Bytes

namespace Chat

def inbox (s : Chat) (fd : ℤ) : Inbox := s.feed.world.kernel.inbox fd

def clients (s : Chat) : Finset ℤ := s.feed.world.websocketDescriptor

def isConnection (s : Chat) (fd : ℤ) : Bool :=
  match s.feed.world.kernel.table fd with
  | some (.conn _) => true
  | _ => false

/-- What happens in one step. -/
inductive Label
  /-- A connection is accepted. -/
  | accept (fd : ℤ) (outbox : List (Option ℕ))
  /-- Its upgrade request is handled. -/
  | handshake (fd : ℤ) (headers : StringMap)
  /-- A piece of a client's bytes arrives; the bytes not yet read are found cut as given. -/
  | arrive (fd : ℤ) (piece : Bytes) (cut : List Bytes) (outbox : List (Option ℕ))
  /-- `notify_message_request` is called. -/
  | notify (fd : ℤ)

/-- A client sends its frames when it has been answered. -/
def step (platform : Platform) (listener : ℤ) (s : Chat) : Label → Option Chat
  | .accept fd outbox =>
    (Feed.step platform listener s.feed (.accept ⟨fd, [], outbox⟩)).map fun feed => { s with feed }
  | .handshake fd headers =>
    (Feed.step platform listener s.feed (.handshake fd headers)).map fun feed => { s with feed }
  | .arrive fd piece cut outbox =>
    if fd ∈ s.clients ∧ s.isConnection fd ∧ piece <+: s.pending fd ∧ (∀ seg ∈ cut, seg ≠ []) ∧
        cut.flatten = Conn.waiting (s.inbox fd) ++ piece then
      (Feed.step platform listener s.feed (.arrive ⟨fd, cut.map some, outbox⟩)).map fun feed =>
        ⟨feed, Function.update s.pending fd ((s.pending fd).drop piece.length)⟩
    else none
  | .notify fd =>
    (Feed.step platform listener s.feed (.notify fd)).map fun feed => { s with feed }

/-- There is no client yet, and each is going to send its frames. -/
def start (listener : ℤ) (frames : ℤ → List Frame) : Chat where
  feed := Feed.start listener
  pending fd := (frames fd).flatMap Frame.wire

/-- A call on a client finds a whole frame, its header, extended length and masking key each in one
segment. -/
def FindsWhole (s : Chat) : Label → Prop
  | .notify fd => fd ∈ s.clients → ∃ f segs, s.inbox fd = segs.map some ∧ Reads f segs
  | _ => True

/-! ## The channel of a server -/

/-- The frame of a post: the number of its author and the text. -/
def postBytes (post : ℤ × Bytes) : Bytes := frameBytes (idMessage post.1 post.2)

/-- The posts of an author. -/
def postsOf (fd : ℤ) (posts : List (ℤ × Bytes)) : List Bytes :=
  (posts.filter fun post => post.1 = fd).map Prod.snd

/-- The frames of a client split into those posted and those of which all bytes are unread or on
their way. -/
def Authored (frames : List Frame) (posts : List (ℤ × Bytes)) (fd : ℤ) (s : Chat) : Prop :=
  ∃ done todo segs, frames = done ++ todo ∧ postsOf fd posts = done.map textOf ∧
    s.inbox fd = segs.map some ∧ Proper segs ∧
    segs.flatten ++ s.pending fd = todo.flatMap Frame.wire

/-- The server runs the channel: its members are the clients, the calls of `send` on a client are
the answer to its handshake and the posts that it sees, and its posts are its frames. -/
structure Represents (platform : Platform) (frames : ℤ → List Frame)
    (t : Channel ℤ (ℤ × Bytes)) (s : Chat) : Prop where
  members : ∀ c, t.joined c ≠ none ↔ c ∈ s.clients
  calls : ∀ c posts, t.view c = some posts → ∃ key,
    (s.feed.ledger c).map Sending.given = upgradeResponse platform key :: posts.map postBytes
  others : ∀ c ∉ s.clients, s.feed.ledger c = []
  taken : ∀ c, s.feed.world.kernel.sentOn c = (s.feed.ledger c).flatMap Sending.taken
  authored : ∀ fd, Authored (frames fd) t.posts fd s

section Step

variable {platform : Platform} {listener : ℤ} {frames : ℤ → List Frame} {s s' : Chat}
  {t : Channel ℤ (ℤ × Bytes)} {D : Finset ℤ} {bytes : Bytes} {fd : ℤ}

theorem given_of_sends {s s' : Feed} (h : Feed.Sends D bytes s s') (c : ℤ) :
    (s'.ledger c).map Sending.given =
      (s.ledger c).map Sending.given ++ if c ∈ D then [bytes] else [] := by
  rw [h.ledger, List.map_append]
  split_ifs <;> rfl

theorem taken_of_sends {s s' : Feed} (h : Feed.Sends D bytes s s') {c : ℤ}
    (htaken : s.world.kernel.sentOn c = (s.ledger c).flatMap Sending.taken) :
    s'.world.kernel.sentOn c = (s'.ledger c).flatMap Sending.taken := by
  rw [h.sentOn, h.ledger, List.flatMap_append, htaken]
  split_ifs
  · simp [Sending.taken]
  · rfl

/-- What an author has posted depends on its inbox and its bytes alone. -/
theorem Authored.of_eq {posts : List (ℤ × Bytes)} {own : List Frame}
    (h : Authored own posts fd s) (hinbox : s'.inbox fd = s.inbox fd)
    (hpending : s'.pending fd = s.pending fd) : Authored own posts fd s' := by
  obtain ⟨done, todo, segs, hframes, hposts, hsegs, hproper, hbytes⟩ := h
  exact ⟨done, todo, segs, hframes, hposts, hinbox.trans hsegs, hproper, by rw [hpending, hbytes]⟩

/-- A post is none of another author. -/
theorem postsOf_concat_ne {posts : List (ℤ × Bytes)} {author : ℤ} (h : author ≠ fd) (m : Bytes) :
    postsOf fd (posts ++ [(author, m)]) = postsOf fd posts := by
  simp [postsOf, h]

theorem postsOf_concat (posts : List (ℤ × Bytes)) (fd : ℤ) (m : Bytes) :
    postsOf fd (posts ++ [(fd, m)]) = postsOf fd posts ++ [m] := by
  simp [postsOf]

/-- Nothing is sent, and nobody joins. -/
theorem Represents.silent (h : Represents platform frames t s)
    (hsends : Feed.Sends ∅ [] s.feed s'.feed) (hclients : s'.clients = s.clients)
    (hauthored : ∀ fd, Authored (frames fd) t.posts fd s') : Represents platform frames t s' := by
  have hledger : ∀ c, s'.feed.ledger c = s.feed.ledger c := fun c =>
    (hsends.unsent (Finset.notMem_empty c)).1
  refine ⟨fun c => ?_, fun c posts hview => ?_, fun c hc => ?_, fun c => ?_, hauthored⟩
  · rw [hclients]
    exact h.members c
  · rw [hledger]
    exact h.calls c posts hview
  · rw [hledger]
    exact h.others c (hclients ▸ hc)
  · exact taken_of_sends hsends (h.taken c)

/-- A client that is answered joins. -/
theorem Represents.joined (h : Represents platform frames t s) {key : Bytes}
    (hnew : fd ∉ s.clients) (hclients : s'.clients = insert fd s.clients)
    (hsends : Feed.Sends {fd} (upgradeResponse platform key) s.feed s'.feed)
    (hauthored : ∀ c, Authored (frames c) t.posts c s') :
    Represents platform frames (t.join fd) s' := by
  refine ⟨fun c => ?_, fun c posts hview => ?_, fun c hc => ?_, fun c => ?_, hauthored⟩
  · rw [hclients, Finset.mem_insert, ← h.members c, Channel.joined_join]
    by_cases hc : c = fd <;> simp [hc]
  · rw [Channel.view_join] at hview
    rw [given_of_sends hsends]
    split_ifs at hview with hc
    · subst hc
      cases hview
      refine ⟨key, ?_⟩
      simp [h.others c hnew]
    · obtain ⟨key', hcalls⟩ := h.calls c posts hview
      exact ⟨key', by simp [hcalls, hc]⟩
  · rw [hclients, Finset.mem_insert, not_or] at hc
    rw [(hsends.unsent (Finset.notMem_singleton.mpr hc.1)).1]
    exact h.others c hc.2
  · exact taken_of_sends hsends (h.taken c)

/-- A frame goes to every client. -/
theorem Represents.posted (h : Represents platform frames t s) {post : ℤ × Bytes}
    (hclients : s'.clients = s.clients)
    (hsends : Feed.Sends s.clients (postBytes post) s.feed s'.feed)
    (hauthored : ∀ fd, Authored (frames fd) (t.posts ++ [post]) fd s') :
    Represents platform frames (t.post post) s' := by
  refine ⟨fun c => ?_, fun c posts hview => ?_, fun c hc => ?_, fun c => ?_, hauthored⟩
  · rw [hclients]
    exact h.members c
  · rw [Channel.view_post] at hview
    obtain ⟨ms, hms, rfl⟩ := Option.map_eq_some_iff.mp hview
    obtain ⟨key, hcalls⟩ := h.calls c ms hms
    have hmem : c ∈ s.clients := by
      rw [← h.members c]
      intro hnone
      simp [Channel.view, hnone] at hms
    refine ⟨key, ?_⟩
    rw [given_of_sends hsends, if_pos hmem, hcalls, List.map_append]
    rfl
  · rw [(hsends.unsent (hclients ▸ hc)).1]
    exact h.others c (hclients ▸ hc)
  · exact taken_of_sends hsends (h.taken c)

/-- A connection that is accepted has an empty inbox. -/
theorem Represents.accept {outbox : List (Option ℕ)} (h : Represents platform frames t s)
    (hstep : step platform listener s (.accept fd outbox) = some s') :
    Represents platform frames t s' := by
  obtain ⟨feed, hfeed, rfl⟩ := Option.map_eq_some_iff.mp hstep
  obtain ⟨⟨n, kernel⟩, haccept, rfl⟩ := Option.map_eq_some_iff.mp hfeed
  have hinbox : ∀ c, kernel.inbox c = s.inbox c := by
    intro c
    obtain ⟨-, -, hnone, htable⟩ := Kernel.of_accept_some haccept
    by_cases hc : c = n
    · subst hc
      simp [inbox, Kernel.inbox, htable, hnone]
    · simp [inbox, Kernel.inbox, htable, Function.update_of_ne hc]
  have hsends : Feed.Sends ∅ [] s.feed (s.feed.record { s.feed.world with kernel }) :=
    Feed.silent_record _ (Kernel.log_accept haccept) (fun _ => rfl)
      fun c => Kernel.sentOn_accept haccept c
  exact h.silent hsends rfl fun c => (h.authored c).of_eq (hinbox c) rfl

theorem Represents.handshake {headers : StringMap} (h : Represents platform frames t s)
    (hstep : step platform listener s (.handshake fd headers) = some s') :
    Represents platform frames t s' ∨
      ∃ t', t.step (.join fd) = some t' ∧ Represents platform frames t' s' := by
  obtain ⟨feed, hfeed, rfl⟩ := Option.map_eq_some_iff.mp hstep
  rw [Feed.step] at hfeed
  split_ifs at hfeed with hnew
  cases hfeed
  by_cases hkey : findWebsocketKey platform headers = []
  · left
    rw [addNewConnectionConnection, if_pos hkey]
    have hsends : Feed.Sends ∅ [] s.feed (s.feed.record s.feed.world) :=
      Feed.silent_record [] (by simp) (fun _ => rfl) fun _ => rfl
    exact h.silent hsends rfl fun c => (h.authored c).of_eq rfl rfl
  · right
    have hjoined : t.joined fd = none := by
      by_contra hne
      exact hnew.2 ((h.members fd).mp hne)
    refine ⟨t.join fd, if_pos hjoined, ?_⟩
    rw [addNewConnectionConnection, if_neg hkey]
    refine h.joined hnew.2 rfl (Feed.sends_answer s.feed fd _ _) fun c => ?_
    exact (h.authored c).of_eq (Kernel.inbox_send ..) rfl

/-- Bytes that arrive go from those on their way to those not read. -/
theorem Represents.arrive {piece : Bytes} {cut : List Bytes} {outbox : List (Option ℕ)}
    (h : Represents platform frames t s)
    (hstep : step platform listener s (.arrive fd piece cut outbox) = some s') :
    Represents platform frames t s' := by
  rw [step] at hstep
  split_ifs at hstep with harrive
  obtain ⟨-, hconn, ⟨rest, hrest⟩, hproper, hcut⟩ := harrive
  obtain ⟨feed, hfeed, rfl⟩ := Option.map_eq_some_iff.mp hstep
  cases hfeed
  have hsends : Feed.Sends ∅ [] s.feed (s.feed.record
      { s.feed.world with kernel := s.feed.world.kernel.arrive ⟨fd, cut.map some, outbox⟩ }) :=
    Feed.silent_record [] (by simp [Kernel.arrive]) (fun _ => rfl)
      (Kernel.sentOn_modify fun _ => rfl)
  refine h.silent hsends rfl fun c => ?_
  by_cases hc : c = fd
  · subst hc
    obtain ⟨conn, htable⟩ : ∃ conn, s.feed.world.kernel.table c = some (.conn conn) := by
      unfold isConnection at hconn
      split at hconn
      · rename_i conn htable
        exact ⟨conn, htable⟩
      · cases hconn
    obtain ⟨done, todo, segs, hframes, hposts, hsegs, -, hbytes⟩ := h.authored c
    refine ⟨done, todo, cut, hframes, hposts, ?_, hproper, ?_⟩
    · exact Kernel.inbox_arrive (a := ⟨c, cut.map some, outbox⟩) htable
    · simp only [Function.update_self]
      rw [hcut, hsegs, Conn.waiting_map_some, List.append_assoc, ← hbytes, ← hrest]
      simp
  · exact (h.authored c).of_eq (Kernel.inbox_modify_ne hc _) (Function.update_of_ne hc ..)

/-- A frame is found on a connection. -/
theorem exists_conn_of_reads {f : Frame} {segs : List Bytes} (h : s.inbox fd = segs.map some)
    (hreads : Reads f segs) : ∃ conn, s.feed.world.kernel.table fd = some (.conn conn) := by
  apply Kernel.exists_conn
  change s.inbox fd ≠ []
  intro hempty
  have hwire := hreads.1.length_le
  rw [h, List.map_eq_nil_iff] at hempty
  simp [hempty, Frame.wire] at hwire

/-- A call that finds a whole frame sends its text to every client. -/
theorem step_notify_eq {f : Frame} {segs : List Bytes} (hfd : fd ∈ s.clients)
    (hinbox : s.inbox fd = segs.map some) (hproper : Proper segs) (hreads : Reads f segs) :
    step platform listener s (.notify fd) = some { s with
      feed := s.feed.record { s.feed.world with
        kernel := broadcast s.clients (idMessage fd (textOf f))
          (s.feed.world.kernel.leave fd ((skip f.wire.length segs).map some)) } } := by
  have hread : readFrame (s.feed.world.kernel.inbox fd) =
      .ok (textOf f, (skip f.wire.length segs).map some) := by
    have hframe := readFrame_frame hproper hreads []
    rwa [List.append_nil, List.append_nil, ← hinbox] at hframe
  have hreg : fd ∈ s.feed.world.websocketDescriptor := hfd
  rw [step, Feed.step, notifyMessageRequest, if_pos hreg, hread]
  rfl

/-- A call that finds a whole frame posts it. -/
theorem Represents.notify (h : Represents platform frames t s)
    (hfinds : FindsWhole s (.notify fd))
    (hstep : step platform listener s (.notify fd) = some s') :
    Represents platform frames t s' ∨
      ∃ post t', t.step (.post post) = some t' ∧ Represents platform frames t' s' := by
  by_cases hfd : fd ∈ s.clients
  · right
    obtain ⟨f, segs', hinbox', hreads⟩ := hfinds hfd
    obtain ⟨done, todo, segs, hframes, hposts, hsegs, hproper, hbytes⟩ := h.authored fd
    have hsame : segs' = segs :=
      List.map_injective_iff.mpr (Option.some_injective _) (hinbox'.symm.trans hsegs)
    subst hsame
    obtain ⟨todo, rfl, hnext⟩ := exists_next_frame hreads hbytes
    rw [step_notify_eq hfd hinbox' hproper hreads] at hstep
    cases hstep
    refine ⟨(fd, textOf f), t.post (fd, textOf f), rfl, ?_⟩
    refine h.posted rfl (Feed.sends_broadcast s.feed fd _ _ _) fun c => ?_
    by_cases hc : c = fd
    · subst hc
      obtain ⟨conn, htable⟩ := exists_conn_of_reads hinbox' hreads
      refine ⟨done ++ [f], todo, skip f.wire.length segs', by simp [hframes], ?_, ?_,
        hproper.skip _, hnext⟩
      · rw [postsOf_concat, hposts, List.map_append]
        rfl
      · exact (inbox_broadcast _ _ _ _).trans (Kernel.inbox_leave htable _)
    · obtain ⟨done', todo', segs, hframes', hposts', hsegs', hproper', hbytes'⟩ := h.authored c
      refine ⟨done', todo', segs, hframes', ?_, ?_, hproper', hbytes'⟩
      · rw [postsOf_concat_ne (Ne.symm hc), hposts']
      · exact ((inbox_broadcast _ _ _ _).trans (Kernel.inbox_modify_ne hc _)).trans hsegs'
  · left
    obtain ⟨feed, hfeed, rfl⟩ := Option.map_eq_some_iff.mp hstep
    have hnotify : notifyMessageRequest fd s.feed.world = .ok s.feed.world := if_neg hfd
    rw [Feed.step, hnotify] at hfeed
    cases hfeed
    have hsends : Feed.Sends ∅ [] s.feed (s.feed.record s.feed.world) :=
      Feed.silent_record [] (by simp) (fun _ => rfl) fun _ => rfl
    exact h.silent hsends rfl fun c => (h.authored c).of_eq rfl rfl

end Step

/-! ## The run -/

section Run

variable {platform : Platform} {listener : ℤ} {frames : ℤ → List Frame} {s : Chat}

theorem represents_start (platform : Platform) (listener : ℤ) (frames : ℤ → List Frame) :
    Represents platform frames .empty (start listener frames) := by
  have hinbox : ∀ fd, (start listener frames).inbox fd = [] := by
    intro fd
    by_cases h : fd = listener <;> simp [inbox, Kernel.inbox, start, Feed.start, h]
  have hsent : ∀ fd, (start listener frames).feed.world.kernel.sentOn fd = [] := by
    intro fd
    by_cases h : fd = listener <;> simp [Kernel.sentOn, start, Feed.start, h]
  refine ⟨fun c => ?_, fun c posts hview => ?_, fun c _ => rfl, hsent, fun fd => ?_⟩
  · simp [Channel.empty, clients, start, Feed.start]
  · simp [Channel.view, Channel.empty] at hview
  · exact ⟨[], frames fd, [], rfl, rfl, hinbox fd, by simp [Proper], rfl⟩

/-- What one step does to the channel: a client joins, a frame is posted, or nothing. -/
theorem Represents.step {t : Channel ℤ (ℤ × Bytes)} {s s' : Chat} {a : Label}
    (h : Represents platform frames t s) (hok : FindsWhole s a)
    (hstep : step platform listener s a = some s') :
    Represents platform frames t s' ∨
      ∃ e t', t.step e = some t' ∧ Represents platform frames t' s' := by
  cases a with
  | accept fd outbox => exact Or.inl (h.accept hstep)
  | handshake fd headers =>
    rcases h.handshake hstep with hsame | ⟨t', ht', hjoined⟩
    · exact Or.inl hsame
    · exact Or.inr ⟨.join fd, t', ht', hjoined⟩
  | arrive fd piece cut outbox => exact Or.inl (h.arrive hstep)
  | notify fd =>
    rcases h.notify hok hstep with hsame | ⟨post, t', ht', hposted⟩
    · exact Or.inl hsame
    · exact Or.inr ⟨.post post, t', ht', hposted⟩

theorem exists_channel (hrun : Reached (step platform listener) FindsWhole
    (start listener frames) s) :
    ∃ t : Channel ℤ (ℤ × Bytes), Reached Channel.step anyStep .empty t ∧
      Represents platform frames t s :=
  hrun.simulates_of_ok (represents_start platform listener frames)
    fun _ _ _ _ h hok hstep => h.step hok hstep

/-- **The server is a channel.** In every run in which each call finds a whole frame, whatever the
order of the steps and however much the calls of `send` take, the server is in a state of the
channel: the posts of each client are a beginning of what its frames say, and a client has been
given the answer to its handshake and the posts since it joined. -/
theorem represents_of_reached (hrun : Reached (step platform listener) FindsWhole
    (start listener frames) s) :
    ∃ t : Channel ℤ (ℤ × Bytes), Reached Channel.step anyStep .empty t ∧
      Represents platform frames t s ∧
      ∀ fd, postsOf fd t.posts <+: (frames fd).map textOf := by
  obtain ⟨t, ht, hrep⟩ := exists_channel hrun
  refine ⟨t, ht, hrep, fun fd => ?_⟩
  obtain ⟨done, todo, -, hframes, hposts, -⟩ := hrep.authored fd
  rw [hposts, hframes, List.map_append]
  exact List.prefix_append _ _

/-! ## Two clients -/

/-- Descriptor 5 sends a frame, and nobody else. -/
def oneAuthor (fd : ℤ) : List Frame := if fd = 5 then [hiFrame] else []

/-- Descriptors 5 and 6 are answered, and the frame arrives in two pieces. -/
def twoClients : List Label :=
  [.accept 5 [], .handshake 5 upgradeHeaders, .accept 6 [], .handshake 6 upgradeHeaders,
    .arrive 5 (hiFrame.wire.take 3) [hiFrame.wire.take 3] [],
    .arrive 5 (hiFrame.wire.drop 3) [hiFrame.wire.take 3, hiFrame.wire.drop 3] []]

/-- The step is no call of `notify_message_request`. -/
def NoCall (_ : Chat) : Label → Prop
  | .notify _ => False
  | _ => True

instance (s : Chat) : DecidablePred (NoCall s)
  | .notify _ => isFalse id
  | .accept .. => isTrue trivial
  | .handshake .. => isTrue trivial
  | .arrive .. => isTrue trivial

/-- The coming calls of `send` on a connection take everything. -/
def roomy (s : Chat) (fd : ℤ) : Bool :=
  match s.feed.world.kernel.table fd with
  | some (.conn c) => c.outbox = []
  | _ => false

theorem room_of_roomy {s : Chat} {fd : ℤ} (h : s.roomy fd = true) (n : ℕ) :
    s.feed.world.kernel.room fd n = n := by
  obtain ⟨c, hc, hout⟩ : ∃ c, s.feed.world.kernel.table fd = some (.conn c) ∧ c.outbox = [] := by
    unfold roomy at h
    split at h
    · exact ⟨_, ‹_›, of_decide_eq_true h⟩
    · cases h
  unfold Kernel.room
  rw [hc]
  simp [Conn.room, hout]

/-- Then the frame is read and sent to both. -/
theorem reached_twoClients : ∃ s, Reached (step .plain 3) FindsWhole (start 3 oneAuthor) s ∧
    (5 ∈ s.clients ∧ 6 ∈ s.clients) ∧ (s.feed.ledger 6).length = 2 ∧
      ∀ e ∈ s.feed.ledger 5 ++ s.feed.ledger 6, e.accepted = e.given.length := by
  have hrun : (run (step .plain 3) NoCall (start 3 oneAuthor) twoClients).any (fun s =>
      s.inbox 5 = [hiFrame.wire.take 3, hiFrame.wire.drop 3].map some ∧
        (5 ∈ s.clients ∧ 6 ∈ s.clients) ∧ (s.roomy 5 ∧ s.roomy 6) ∧
        (s.feed.ledger 6).length = 1 ∧
          ∀ e ∈ s.feed.ledger 5 ++ s.feed.ledger 6, e.accepted = e.given.length) = true := by
    decide +kernel
  obtain ⟨s, hs, hinbox, ⟨h5, h6⟩, ⟨hroom5, hroom6⟩, hledger, hall⟩ := exists_reached hrun
  have hproper : Proper [hiFrame.wire.take 3, hiFrame.wire.drop 3] := by
    unfold Proper
    decide
  have hreads : Reads hiFrame [hiFrame.wire.take 3, hiFrame.wire.drop 3] := by
    refine ⟨?_, ?_, ?_, ?_⟩ <;> decide
  have hmono : ∀ s a, NoCall s a → FindsWhole s a := by
    intro s a h
    cases a with
    | notify fd => exact h.elim
    | _ => trivial
  have hsends := Feed.sends_broadcast s.feed 5
    ((skip hiFrame.wire.length [hiFrame.wire.take 3, hiFrame.wire.drop 3]).map some)
    (idMessage 5 (textOf hiFrame)) s.clients
  have hstep := (hs.mono hmono).step
    (show FindsWhole s (.notify 5) from fun _ => ⟨hiFrame, _, hinbox, hreads⟩)
    (step_notify_eq h5 hinbox hproper hreads)
  refine ⟨_, hstep, ⟨h5, h6⟩, ?_, ?_⟩
  · rw [hsends.ledger, if_pos h6, List.length_append, hledger]
    rfl
  · intro e he
    rw [hsends.ledger, hsends.ledger, if_pos h5, if_pos h6, room_of_roomy hroom5,
      room_of_roomy hroom6] at he
    simp only [List.mem_append, List.mem_singleton] at he hall
    rcases he with (he | rfl) | (he | rfl)
    · exact hall e (Or.inl he)
    · rfl
    · exact hall e (Or.inr he)
    · rfl

theorem represents_twoClients : ∃ s, (s.feed.ledger 6).length = 2 ∧
    ∃ t : Channel ℤ (ℤ × Bytes), Reached Channel.step anyStep .empty t ∧
      Represents .plain oneAuthor t s ∧
      ∀ fd, postsOf fd t.posts <+: (oneAuthor fd).map textOf := by
  obtain ⟨s, hs, -, hledger, -⟩ := reached_twoClients
  exact ⟨s, hledger, represents_of_reached hs⟩

/-! ## One order -/

theorem exists_view {t : Channel ℤ (ℤ × Bytes)} (h : Represents platform frames t s) {c : ℤ}
    (hc : c ∈ s.clients) : ∃ posts, t.view c = some posts := by
  obtain ⟨n, hn⟩ := Option.ne_none_iff_exists'.mp ((h.members c).mpr hc)
  exact ⟨t.posts.drop n, by rw [Channel.view, hn, Option.map_some]⟩

/-- The bytes of a client whose calls of `send` took what they were given. -/
theorem Represents.sentOn_eq {t : Channel ℤ (ℤ × Bytes)} (h : Represents platform frames t s)
    {c : ℤ} {posts : List (ℤ × Bytes)} (hview : t.view c = some posts)
    (hall : ∀ e ∈ s.feed.ledger c, e.accepted = e.given.length) :
    ∃ key, s.feed.world.kernel.sentOn c =
      upgradeResponse platform key ++ posts.flatMap postBytes := by
  obtain ⟨key, hcalls⟩ := h.calls c posts hview
  have htaken : (s.feed.ledger c).flatMap Sending.taken =
      ((s.feed.ledger c).map Sending.given).flatten := by
    rw [← List.flatMap_def]
    refine List.flatMap_congr fun e he => ?_
    rw [Sending.taken, hall e he, List.take_length]
  refine ⟨key, ?_⟩
  rw [h.taken c, htaken, hcalls, List.flatten_cons, List.flatMap_def]

/-- **One order of messages.** Two clients whose calls of `send` took everything have received the
answers to their handshakes and whole frames behind them, and the posts that one of them has
received are an end of those of the other. -/
theorem one_order_of_reached (hrun : Reached (step platform listener) FindsWhole
    (start listener frames) s) {c d : ℤ} (hc : c ∈ s.clients) (hd : d ∈ s.clients)
    (hall : ∀ e ∈ s.feed.ledger c ++ s.feed.ledger d, e.accepted = e.given.length) :
    ∃ key key' posts posts',
      s.feed.world.kernel.sentOn c = upgradeResponse platform key ++ posts.flatMap postBytes ∧
      s.feed.world.kernel.sentOn d = upgradeResponse platform key' ++ posts'.flatMap postBytes ∧
      (posts <:+ posts' ∨ posts' <:+ posts) := by
  obtain ⟨t, -, hrep⟩ := exists_channel hrun
  obtain ⟨posts, hposts⟩ := exists_view hrep hc
  obtain ⟨posts', hposts'⟩ := exists_view hrep hd
  obtain ⟨key, hkey⟩ := hrep.sentOn_eq hposts fun e he => hall e (List.mem_append_left _ he)
  obtain ⟨key', hkey'⟩ := hrep.sentOn_eq hposts' fun e he => hall e (List.mem_append_right _ he)
  exact ⟨key, key', posts, posts', hkey, hkey', Channel.suffix_or_suffix hposts hposts'⟩

theorem one_order_twoClients : ∃ s : Chat, (s.feed.ledger 6).length = 2 ∧
    ∃ key key' posts posts',
      s.feed.world.kernel.sentOn 5 = upgradeResponse .plain key ++ posts.flatMap postBytes ∧
      s.feed.world.kernel.sentOn 6 = upgradeResponse .plain key' ++ posts'.flatMap postBytes ∧
      (posts <:+ posts' ∨ posts' <:+ posts) := by
  obtain ⟨s, hs, hclients, hledger, hall⟩ := reached_twoClients
  exact ⟨s, hledger, one_order_of_reached hs hclients.1 hclients.2 hall⟩

end Run

end Chat

end SimpleServer

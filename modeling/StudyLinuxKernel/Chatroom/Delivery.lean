import StudyLinuxKernel.Chatroom.Registration

namespace StudyLinuxKernel.Chatroom.Delivery

open StudyLinuxKernel.Chatroom.Broadcast
open StudyLinuxKernel.Chatroom.Registration
open StudyLinuxKernel.Chatroom.Server
open StudyLinuxKernel.Hashtable.Table
open StudyLinuxKernel.Libc.Inet
open StudyLinuxKernel.Libc.Text
open StudyLinuxKernel.Library.PartialStep

/-- Each of the first senders, who are registered, gets the text once, by its
own socket and at the address of its registration. -/
structure Delivered (s : ChatServer) (source : SockaddrIn) (bytes : Bytes)
    (sendings : List Sending) : Prop where
  registered : s.sockets.map Socket.peer = (distinct (senders s)).take MAX_CLIENTS
  once : (s.sockets.map Socket.peer).Nodup
  sendings : sendings.Perm (s.sockets.map fun socket => {
    fd := socket.fd
    dest := socket.peer
    message := inetNtoa source.sinAddr ++ literal "> " ++ cStr bytes })

/-- A message that does not fill the array is passed on whole. -/
theorem broadcast_delivered (memory : HashTable) (msg : Bytes) (actions : List Action)
    (h : EveryStep step Granted (.start memory msg) actions) (s : ChatServer)
    (hrun : run step (.start memory msg) actions = some s) (source : SockaddrIn) (bytes : Bytes)
    (hlength : bytes.length < MAX_MSG_LEN) (answers : Answers) (hanswers : Succeeds s answers) :
    ∃ s' sendings, step s (.datagram source bytes answers) = some s' ∧
      s'.log = s.log ++ [{ source, datagram := bytes, sendings }] ∧
      Delivered s' source bytes sendings := by
  have hsound := (sound_of_run h).reached hrun
  obtain ⟨s', sendings, hstep, hsound', hlog, _, hsendings⟩ :=
    hsound.datagram source hlength hanswers
  rw [broadcastText, List.take_of_length_le hlength.le] at hsendings
  exact ⟨s', sendings, hstep, hlog, hsound'.first, hsound'.once, hsendings⟩

theorem broadcast_delivered_first : ∃ s' sendings,
    step (.start cleanMemory []) (.datagram firstClient (literal "hello") firstCalls) = some s' ∧
      s'.log = [{ source := firstClient, datagram := literal "hello", sendings }] ∧
      Delivered s' firstClient (literal "hello") sendings :=
  broadcast_delivered cleanMemory [] [] (everyStep_nil _ _) _ rfl firstClient (literal "hello")
    (by decide) firstCalls (succeeds_firstCalls cleanMemory [])

end StudyLinuxKernel.Chatroom.Delivery

import TopicServer.Lib.Table
import TopicServer.Poll
import TopicServer.Stdio
import TopicServer.Subs
import TopicServer.Udp
/-!
# Server — the main loop

One step of the server is one call of `poll`, one of the three single branches, or one round of the client loop.  What
the system decides (which descriptors are ready, what a call gives, whether an allocation in `main` succeeds, in which
order a hash map is walked) comes with the event; what the server does to the system comes out as acts, its calls in
their order.  How a send ends is not decided here but in `Signals`.  A step that would leave a buffer, or an event that
does not belong to where the loop stands, gives `none`.
-/
namespace Ts

open Text (ascii)

/-- Where the main loop stands: before `poll`, in one of the three single branches, at an index of the client loop. -/
inductive Pc
  | poll
  | stdin
  | listen
  | udp
  | clients (i : Nat)
  | exited
deriving DecidableEq

structure Server where
  pollStruct : PollAdjustable
  userIdSet : Finset Bytes
  userSubscriptions : Table.Map Bytes UserIdSubscriptions
  fdsToUsers : Table.Map Fd Bytes
  stdin_buffer : Bytes
  pc : Pc

/-- An accepted connection: how the calls on it end, and the first text it gives, whatever its length; `stepRead` has the
buffer it is read into. -/
structure Login where
  connfd : Fd
  cli : SockaddrIn
  nagleOk : Bool
  reallocOk : Bool
  buff : CText

inductive Event
  | poll (revents : Option (List UInt16))
  | fgets (input : Bytes)
  | accept (login : Option Login)
  | recvfrom (datagram : Option (Bytes × SockaddrIn)) (order : List Bytes)
  | recv (buff : CText) (strdupOk : Bool)
  | next

def ready (x : Pollfd) : Bool := x.revents &&& pollin ≠ 0

/-- Which branch a return of `poll` leads to. -/
def dispatch (p : PollAdjustable) : Option Pc := do
  if ready (← p.pollfds[0]?) then return .stdin
  if ready (← p.pollfds[1]?) then return .listen
  if ready (← p.pollfds[2]?) then return .udp
  return .clients 3

namespace Server

def exit (srv : Server) : Option (Server × List Act) := do
  let (pollStruct, acts) ← srv.pollStruct.freeMemory
  return ({ srv with pollStruct, pc := .exited }, acts)

def pollStep (srv : Server) : Option (List UInt16) → Option (Server × List Act)
  | none => exit srv
  | some revents => do
    if revents.length ≠ srv.pollStruct.nfds then none
    let pollStruct := srv.pollStruct.setRevents revents
    let pc ← dispatch pollStruct
    return ({ srv with pollStruct, pc }, [])

def stdinBranch (srv : Server) (input : Bytes) : Option (Server × List Act) := do
  let (stdin_buffer, _) ← fgets srv.stdin_buffer 8 input
  let stdin_buffer ← chop stdin_buffer
  if ← Mem.strcmpEq stdin_buffer (ascii "exit" ++ [0]) then exit { srv with stdin_buffer }
  else return ({ srv with stdin_buffer, pc := .poll }, [])

def refuse (srv : Server) (connfd : Fd) : Server × List Act :=
  let (pollStruct, acts) := srv.pollStruct.removeLast connfd
  -- the connection may have been reset: whether the server outlives this send is for `Life.Step` to say
  ({ srv with pollStruct }, .sendTcp connfd (ascii "shutdown") :: acts)

def newClient (buff : Bytes) (cli : SockaddrIn) : Act :=
  .cout (ascii "New client " ++ buff ++ ascii " connected from " ++ inetNtop cli ++ ascii ":" ++ Text.dec cli.port)

def alreadyConnected (buff : Bytes) : Act := .cout (ascii "Client " ++ buff ++ ascii " already connected.")

def disconnected (userId : Bytes) : Act := .cout (ascii "Client " ++ userId ++ ascii " disconnected.")

def login (srv : Server) (connfd : Fd) (cli : SockaddrIn) (buff : Bytes) : Server × List Act :=
  if buff ≠ [] ∧ blank ∉ buff then
    if buff ∉ srv.userIdSet then
      ({ srv with
          userIdSet := insert buff srv.userIdSet
          userSubscriptions := srv.userSubscriptions.insert buff (.mk' true connfd)
          fdsToUsers := srv.fdsToUsers.insert connfd buff }, [newClient buff cli])
    else
      let (u, userSubscriptions) := Table.entry srv.userSubscriptions buff (.mk' true (-1))
      if !u.active then
        ({ srv with
            userSubscriptions := userSubscriptions.insert buff { u with active := true, fd := connfd }
            fdsToUsers := srv.fdsToUsers.insert connfd buff }, [newClient buff cli])
      else
        let (srv, acts) := refuse { srv with userSubscriptions } connfd
        (srv, alreadyConnected buff :: acts)
  else refuse srv connfd

def acceptBranch (host : Host) (srv : Server) : Option Login → Option (Server × List Act)
  | none => some ({ srv with pc := .poll }, [])
  | some c =>
    if !c.nagleOk then some ({ srv with pc := .poll }, [.accept c.connfd, .close c.connfd])
    else do
      let (rc, pollStruct) ← srv.pollStruct.addFd host c.connfd c.reallocOk
      if rc = -1 then
        return ({ srv with pollStruct, pc := .poll },
          [.accept c.connfd, .sendTcp c.connfd (ascii "shutdown"), .close c.connfd])
      let (srv, acts) := login { srv with pollStruct, pc := .poll } c.connfd c.cli c.buff
      return (srv, .accept c.connfd :: .recv c.connfd c.buff :: acts)

/-- The loop over the users, in the order the map gives them. -/
def deliver (host : Host) (userSubscriptions : Table.Map Bytes UserIdSubscriptions) (toSend topic : Bytes) :
    List Bytes → Option (List Act)
  | [] => some []
  | u :: order => do
    let value ← userSubscriptions.lookup u
    let res ← getMatch host value topic
    let acts ← deliver host userSubscriptions toSend topic order
    return if res then .sendTcp value.fd toSend :: acts else acts

def udpBranch (host : Host) (srv : Server) (datagram : Option (Bytes × SockaddrIn)) (order : List Bytes) :
    Option (Server × List Act) := do
  let (d, sender) := datagram.getD ([], ⟨(0, 0, 0, 0), (0, 0)⟩)
  let rc : Int := if datagram.isNone then -1 else (d.take 1700).length
  let toSend ← manageUdp host (udpRecv d) sender rc
  if toSend ≠ [] then
    let topic ← Mem.read (udpRecv d) 0 50
    let acts ← deliver host srv.userSubscriptions toSend (topic ++ [0]) order
    return ({ srv with pc := .poll }, acts)
  else return ({ srv with pc := .poll }, [])

/-- `iss >> command >> topic`. -/
def readCommand (buff : Bytes) : Bytes × Bytes :=
  let (command, iss) := Text.word buff
  (command, (Text.word iss).1)

/-- A frame of the user's that is not empty. -/
def command (host : Host) (srv : Server) (userId buff : Bytes) (strdupOk : Bool) : Option Server := do
  let (command, topic) := readCommand buff
  if !strdupOk then return srv
  let str ← Mem.strdup (topic ++ [0])
  let str ← Mem.cstr str
  if command = ascii "unsubscribe" then
    let (u, userSubscriptions) := Table.entry srv.userSubscriptions userId (.mk' true (-1))
    let u ← addUnsubscribe host u str
    return { srv with userSubscriptions := userSubscriptions.insert userId u }
  else if command = ascii "subscribe" then
    let (u, userSubscriptions) := Table.entry srv.userSubscriptions userId (.mk' true (-1))
    let u ← addSubscribe host u str
    return { srv with userSubscriptions := userSubscriptions.insert userId u }
  else return srv

/-- A client that is ready: the body of the client loop. -/
def clientData (host : Host) (srv : Server) (fd : Fd) (buff : Bytes) (strdupOk : Bool) :
    Option (Server × List Act) := do
  let (userId, fdsToUsers) := Table.entry srv.fdsToUsers fd []
  let srv := { srv with fdsToUsers }
  if buff = [] then
    let fdsToUsers := srv.fdsToUsers.erase fd
    let (pollStruct, acts) ← srv.pollStruct.remove fd
    let (u, userSubscriptions) := Table.entry srv.userSubscriptions userId (.mk' true (-1))
    return ({ srv with
        pollStruct, fdsToUsers,
        userSubscriptions := userSubscriptions.insert userId { u with active := false } },
      .recv fd buff :: acts ++ [disconnected userId])
  else
    let srv ← command host srv userId buff strdupOk
    return (srv, [.recv fd buff])

def clientStep (host : Host) (srv : Server) (i : Nat) : Event → Option (Server × List Act)
  | .next => do
    if srv.pollStruct.nfds ≤ i then return ({ srv with pc := .poll }, [])
    let x ← srv.pollStruct.pollfds[i]?
    if ready x then none
    return ({ srv with pc := .clients (i + 1) }, [])
  | .recv buff strdupOk => do
    if srv.pollStruct.nfds ≤ i then none
    let x ← srv.pollStruct.pollfds[i]?
    if !ready x then none
    clientData host { srv with pc := .clients (i + 1) } x.fd buff strdupOk
  | _ => none

def step (host : Host) (srv : Server) (ev : Event) : Option (Server × List Act) :=
  match srv.pc, ev with
  | .poll, .poll revents => pollStep srv revents
  | .stdin, .fgets input => stdinBranch srv input
  | .listen, .accept c => acceptBranch host srv c
  | .udp, .recvfrom datagram order =>
    if order.Perm srv.userSubscriptions.keys then udpBranch host srv datagram order else none
  | .clients i, ev => clientStep host srv i ev
  | _, _ => none

def start (host : Host) (listenfd udp_socket : Fd) : Option Server := do
  let (_, p) ← (initPoll host).addFd host 0 true
  let (_, p) ← p.addFd host listenfd true
  let (_, p) ← p.addFd host udp_socket true
  return ⟨p, ∅, ∅, ∅, host.malloc 11, .poll⟩

end Server

end Ts

import CrossTransfer.Library.Machine
import CrossTransfer.Share.TransferSession

/-! # A sender and a receiver

One `Party` is a session with its engine threads, its event loop and what it has sent and
received so far; its actions are the calls, deliveries and thread steps that can happen to it
in any order. `duplex` puts a sending and a receiving party side by side. Control messages
arrive in the order they were sent, and possibly only a prefix of them; a datagram that was
sent can arrive any number of times, at any later time, or never.
-/

namespace CrossTransfer.Share

open CrossTransfer.Library
open CrossTransfer.Transfer

structure Party where
  session : TransferSession
  fs : Fs
  /-- Control messages sent so far. -/
  sent : List CtrlMsg := []
  /-- Control messages delivered so far. -/
  received : List CtrlMsg := []
  /-- What the sender thread has handed out. -/
  txLog : List TxEvent := []
  /-- What the writer thread has handed out. -/
  rxLog : List RxEvent := []
  /-- Engine callbacks that have run on the loop. -/
  ran : Nat := 0

/-- What can happen to a party without its peer: calls on the loop, thread steps. -/
inductive LocalAct where
  | ready
  | down
  | pause
  | resume
  | cancel (reason : Bytes)
  | sessionEnd (reason : Bytes)
  /-- The next engine callback that was posted to the loop. -/
  | task
  /-- The engine's thread has exited and the method that waited for it goes on. -/
  | stopped
  | senderThread (io : TxIo)
  | writerThread (io : Io)

inductive PartyAct where
  | here (a : LocalAct)
  /-- A control message, on the loop. -/
  | ctrl (io : OfferIo) (msg : CtrlMsg)
  /-- A datagram, on the transport thread. -/
  | sack (wire : Bytes)
  | block (wire : Bytes)

namespace Party

variable (p : Party)

/-- Callbacks posted by the sender engine; datagrams go to the link. -/
def txTasks : List TxEvent := p.txLog.filter fun e => match e with
  | .data _ => false
  | _ => true

/-- Callbacks posted by the receiver engine. -/
def rxTasks : List RxEvent := p.rxLog.filter fun e => match e with
  | .sack _ => false
  | _ => true

/-- The control messages among the events of a method. -/
def ctrlOf (out : List SessionEvent) : List CtrlMsg := out.filterMap fun e => match e with
  | .ctrl msg => some msg
  | _ => none

/-- The party after a method of its session returned. -/
def returned (s : TransferSession) (out : List SessionEvent) : Party :=
  { p with session := s, sent := p.sent ++ ctrlOf out }

/-- A control message is dispatched. -/
def ctrlStep (sha : Bytes → Bytes) (io : OfferIo) (msg : CtrlMsg) : Option Party :=
  (p.session.onCtrlMessage sha io msg p.fs).map fun (s, fs, out) =>
    { p.returned s out with fs := fs, received := p.received ++ [msg] }

/-- The next engine callback runs. -/
def taskStep (sha : Bytes → Bytes) : Option Party :=
  let s := p.session
  if s.isSender then
    (p.txTasks[p.ran]?).map fun e =>
      { p.returned (s.onTxEvent e).1 (s.onTxEvent e).2 with ran := p.ran + 1 }
  else
    (p.rxTasks[p.ran]?).map fun e =>
      { p.returned (s.onRxEvent sha e).1 (s.onRxEvent sha e).2 with ran := p.ran + 1 }

def stoppedStep : Option Party :=
  (p.session.finishStop p.fs).map fun (s, fs, out) => { p.returned s out with fs := fs }

def senderThreadStep (sha : Bytes → Bytes) (io : TxIo) : Option Party :=
  p.session.sender.bind fun t => (t.senderStep sha io).map fun (t, out) =>
    { p with session := { p.session with sender := some t }, txLog := p.txLog ++ out }

def writerThreadStep (sha : Bytes → Bytes) (io : Io) : Option Party :=
  p.session.receiver.bind fun t => (t.writerStep sha io p.fs).map fun (t, fs, out) =>
    { p with
      session := { p.session with receiver := some t }
      fs := fs
      rxLog := p.rxLog ++ out }

/-- A method that waits for a thread blocks the loop. -/
def onLoop (step : Option Party) : Option Party :=
  if p.session.stopping.isSome then none else step

def step (sha : Bytes → Bytes) (a : PartyAct) : Option Party :=
  let s := p.session
  let call (r : TransferSession × List SessionEvent) := p.onLoop (some (p.returned r.1 r.2))
  match a with
  | .here .ready => call s.onTransportReady
  | .here .down => call (s.onTransportDown, [])
  | .here .pause => call s.pause
  | .here .resume => call s.resume
  | .here (.cancel reason) => call (s.cancel reason)
  | .here (.sessionEnd reason) => call (s.onSessionEnd reason)
  | .here .task => p.onLoop (p.taskStep sha)
  | .here .stopped => p.stoppedStep
  | .here (.senderThread io) => p.senderThreadStep sha io
  | .here (.writerThread io) => p.writerThreadStep sha io
  | .ctrl io msg => p.onLoop (p.ctrlStep sha io msg)
  | .sack wire => some { p with session := { s with sender := s.sender.map (·.onSack wire) } }
  | .block wire => some { p with session := { s with receiver := s.receiver.map (·.onBlock wire) } }

end Party

/-! ## The two parties -/

structure DuplexState where
  sender : Party
  receiver : Party

/-- An action of one of the parties; deliveries name what is delivered by its place in the
    peer's log. -/
inductive NetAct where
  | here (a : LocalAct)
  /-- The next control message. -/
  | ctrl (io : OfferIo)
  | sack (k : Nat)
  | block (k : Nat)

inductive DuplexAct where
  | sender (a : NetAct)
  | receiver (a : NetAct)

/-- What the network delivers to `p` from `peer`. -/
def deliver (p peer : Party) : NetAct → Option PartyAct
  | .here a => some (.here a)
  | .ctrl io => (peer.sent[p.received.length]?).map (.ctrl io)
  | .sack k =>
    match peer.rxLog[k]? with
    | some (.sack wire) => some (.sack wire)
    | _ => none
  | .block k =>
    match peer.txLog[k]? with
    | some (.data wire) => some (.block wire)
    | _ => none

/-- The parameters of a transfer: the sender's manifest and number of open files, the receiver's
    save directory and resume record, the two file systems. -/
structure DuplexSetup where
  manifest : Manifest
  fileCount : Nat
  saveDir : Option Path
  record : Option ResumeRecord
  senderFs : Fs
  receiverFs : Fs

/-- One party takes a step. -/
def duplexStep (sha : Bytes → Bytes) (s : DuplexState) : DuplexAct → Option DuplexState
  | .sender a =>
    (deliver s.sender s.receiver a).bind fun a =>
      (s.sender.step sha a).map fun p => { s with sender := p }
  | .receiver a =>
    (deliver s.receiver s.sender a).bind fun a =>
      (s.receiver.step sha a).map fun p => { s with receiver := p }

def duplex (sha : Bytes → Bytes) (setup : DuplexSetup) : Machine DuplexState DuplexAct where
  init :=
    { sender :=
        { session := .newSender setup.manifest setup.fileCount, fs := setup.senderFs }
      receiver :=
        { session := .newReceiver setup.saveDir setup.record, fs := setup.receiverFs } }
  step := duplexStep sha

end CrossTransfer.Share

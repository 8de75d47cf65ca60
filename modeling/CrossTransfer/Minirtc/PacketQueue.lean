import CrossTransfer.Library.Machine
import CrossTransfer.Library.OrderedMap
import CrossTransfer.Minirtc.CongestionFeedback
import Mathlib.Algebra.BigOperators.Group.List.Basic
import Mathlib.Data.List.FinRange
import Mathlib.Data.List.Nodup

/-! # The queue of the pacer

`minirtc/src/qos/prioritized_packet_queue.{h,cc}`. For each SSRC there is a stream with a queue for each
priority, and for each priority a queue of the streams that have packets of it. Packets of the first
priority that has any are taken, from its streams in turn. Packets may be dropped when they are too old.

Times are in microseconds. A `StreamQueue*` is the SSRC of the stream, and an iterator into
`enqueue_times_` is the node it points to. What would read behind the end of a queue or through a pointer
to nothing has no result.
-/

namespace CrossTransfer.Minirtc

open CrossTransfer.Library

inductive RtpPacketMediaType
  | audio
  | video
  | retransmission
  | forwardErrorCorrection
  | padding
deriving DecidableEq

inductive OriginalType
  | audio
  | video
deriving DecidableEq

/-- What the queue reads of a packet; sizes are in bytes. -/
structure RtpPacketToSend where
  ssrc : UInt32
  sequenceNumber : UInt16
  packetType : RtpPacketMediaType
  originalPacketType : Option OriginalType := none
  isKeyFrame : Bool := false
  payloadSize : Nat
  paddingSize : Nat := 0
deriving DecidableEq

abbrev kNumPriorityLevels : Nat := 5

abbrev PriorityLevel := Fin kNumPriorityLevels

/-- `GetPriorityForType`. -/
def getPriorityForType (type : RtpPacketMediaType) (originalType : Option OriginalType) : PriorityLevel :=
  match type with
  | .audio => 0
  | .retransmission => if originalType = some .video then 2 else 1
  | .video | .forwardErrorCorrection => 3
  | .padding => 4

structure PacketQueueTtl where
  audioRetransmission : TimeDelta := .plusInfinity
  videoRetransmission : TimeDelta := .plusInfinity
  video : TimeDelta := .plusInfinity

/-- `ToTtlPerPrio`. -/
def toTtlPerPrio (ttl : PacketQueueTtl) : PriorityLevel → TimeDelta :=
  let ttlPerPrio : PriorityLevel → TimeDelta := fun _ => .plusInfinity
  let ttlPerPrio := Function.update ttlPerPrio (getPriorityForType .retransmission (some .audio))
    ttl.audioRetransmission
  let ttlPerPrio := Function.update ttlPerPrio (getPriorityForType .retransmission (some .video))
    ttl.videoRetransmission
  Function.update ttlPerPrio (getPriorityForType .video none) ttl.video

/-- What a queue is made with. -/
structure QueueConfiguration where
  prioritizeAudioRetransmission : Bool := false
  packetQueueTtl : PacketQueueTtl := {}

namespace QueueConfiguration

variable (c : QueueConfiguration)

/-- The priority of a packet. -/
def prioLevel (packet : RtpPacketToSend) : PriorityLevel :=
  getPriorityForType packet.packetType
    (if c.prioritizeAudioRetransmission then packet.originalPacketType else none)

def timeToLivePerPrio : PriorityLevel → TimeDelta := toTtlPerPrio c.packetQueueTtl

end QueueConfiguration

/-- A node of `enqueue_times_`. -/
structure TimeNode where
  address : Nat
  time : Int
deriving DecidableEq

/-- `enqueueTime` is without the time for which the queue had been paused. -/
structure QueuedPacket where
  packet : RtpPacketToSend
  enqueueTime : Int
  enqueueTimeIterator : TimeNode
deriving DecidableEq

def QueuedPacket.packetSize (p : QueuedPacket) : Int := p.packet.payloadSize + p.packet.paddingSize

/-! ## Streams -/

structure StreamQueue where
  packets : PriorityLevel → List QueuedPacket := fun _ => []
  lastEnqueueTime : Int
  numKeyframePackets : Int := 0

namespace StreamQueue

variable (stream : StreamQueue) (level : PriorityLevel)

def enqueuePacket (p : QueuedPacket) : StreamQueue :=
  { stream with
    numKeyframePackets := stream.numKeyframePackets + if p.packet.isKeyFrame then 1 else 0
    packets := Function.update stream.packets level (stream.packets level ++ [p]) }

/-- `DequeuePacket` of the packets in front of `rest`, one after another. -/
def dequeuePackets (front rest : List QueuedPacket) : StreamQueue :=
  { stream with
    numKeyframePackets := stream.numKeyframePackets - front.countP (·.packet.isKeyFrame)
    packets := Function.update stream.packets level rest }

def hasPacketsAtPrio : Bool := !(stream.packets level).isEmpty

def isEmpty : Bool := (List.finRange kNumPriorityLevels).all fun level => (stream.packets level).isEmpty

/-- `DequeueAll`: the packets by priority, and the stream without them. -/
def dequeueAll : (PriorityLevel → List QueuedPacket) × StreamQueue :=
  (stream.packets, { stream with packets := fun _ => [], numKeyframePackets := 0 })

end StreamQueue

/-! ## The queue -/

structure PrioritizedPacketQueue where
  queueTimeSum : Int := 0
  pauseTimeSum : Int := 0
  sizePackets : Int := 0
  sizePacketsPerMediaType : RtpPacketMediaType → Int := fun _ => 0
  sizePayload : Int := 0
  lastUpdateTime : Int
  paused : Bool := false
  lastCullingTime : Int
  streams : OrderedMap UInt32 StreamQueue := ∅
  streamsByPrio : PriorityLevel → List UInt32 := fun _ => []
  topActivePrioLevel : Option PriorityLevel := none
  enqueueTimes : List TimeNode := []
  nextAddress : Nat := 0

def kTimeout : Int := 500000

namespace PrioritizedPacketQueue

/-- A queue that is made at a time. -/
def create (creationTime : Int) : PrioritizedPacketQueue where
  lastUpdateTime := creationTime
  lastCullingTime := creationTime

variable (q : PrioritizedPacketQueue)

/-- The packets of a stream at a priority. -/
def packetsAt (ssrc : UInt32) (level : PriorityLevel) : List QueuedPacket :=
  (q.streams[ssrc]?).elim [] (·.packets level)

/-- The time that a packet has been in the queue while the queue was not paused. -/
def timeInNonPausedState (p : QueuedPacket) : Int := q.lastUpdateTime - p.enqueueTime - q.pauseTimeSum

/-- `DequeuePacketInternal`. -/
def dequeuePacketInternal (p : QueuedPacket) : PrioritizedPacketQueue :=
  { q with
    sizePackets := q.sizePackets - 1
    sizePacketsPerMediaType := Function.update q.sizePacketsPerMediaType p.packet.packetType
      (q.sizePacketsPerMediaType p.packet.packetType - 1)
    sizePayload := q.sizePayload - p.packetSize
    queueTimeSum := q.queueTimeSum - q.timeInNonPausedState p
    enqueueTimes := q.enqueueTimes.erase p.enqueueTimeIterator }

/-- The packets in front of `rest` are dequeued from a stream. -/
def dequeueFront (ssrc : UInt32) (stream : StreamQueue) (level : PriorityLevel)
    (front rest : List QueuedPacket) : PrioritizedPacketQueue :=
  front.foldl dequeuePacketInternal
    { q with streams := q.streams.insert ssrc (stream.dequeuePackets level front rest) }

/-- The inner loop of `PurgeOldPacketsAtPriorityLevel`: as long as the leading packet is too old it is
    dropped. -/
def purgeStream (level : PriorityLevel) (now ttl : Int) (ssrc : UInt32) :
    Option (PrioritizedPacketQueue × List QueuedPacket) := do
  let stream ← q.streams[ssrc]?
  let tooOld (p : QueuedPacket) : Bool := decide (ttl < now - p.enqueueTime)
  let packets := stream.packets level
  return (q.dequeueFront ssrc stream level (packets.takeWhile tooOld) (packets.dropWhile tooOld),
    packets.takeWhile tooOld)

/-- The outer loop: the packets that are dropped, and the streams that stay. -/
def purgeStreams (level : PriorityLevel) (now ttl : Int) :
    List UInt32 → PrioritizedPacketQueue → Option (PrioritizedPacketQueue × List QueuedPacket × List UInt32)
  | [], q => some (q, [], [])
  | ssrc :: ssrcs, q => do
    let (q, old) ← q.purgeStream level now ttl ssrc
    let stream ← q.streams[ssrc]?
    let (q, dropped, kept) ← purgeStreams level now ttl ssrcs q
    return (q, old ++ dropped, if stream.hasPacketsAtPrio level then ssrc :: kept else kept)

variable (c : QueueConfiguration)

/-- `PurgeOldPacketsAtPriorityLevel`, with the packets that are dropped. -/
def purgeOldPacketsAtPriorityLevel (level : PriorityLevel) (now : Int) :
    Option (PrioritizedPacketQueue × List QueuedPacket) :=
  match c.timeToLivePerPrio level with
  | .us ttl => do
    let (q, dropped, kept) ← purgeStreams level now ttl (q.streamsByPrio level) q
    return ({ q with streamsByPrio := Function.update q.streamsByPrio level kept }, dropped)
  | _ => some (q, [])

/-- The loop of `MaybeUpdateTopPrioLevel` over the priorities that are left. -/
def findTopPrioLevel : List PriorityLevel → PrioritizedPacketQueue →
    Option (PrioritizedPacketQueue × List QueuedPacket)
  | [], q => some (q, [])
  | level :: levels, q => do
    let (q, dropped) ← q.purgeOldPacketsAtPriorityLevel c level q.lastUpdateTime
    if q.streamsByPrio level ≠ [] then return ({ q with topActivePrioLevel := some level }, dropped)
    let (q, more) ← findTopPrioLevel levels q
    return (q, dropped ++ more)

/-- `MaybeUpdateTopPrioLevel`. -/
def maybeUpdateTopPrioLevel : Option (PrioritizedPacketQueue × List QueuedPacket) :=
  if q.topActivePrioLevel.any fun level => !(q.streamsByPrio level).isEmpty then some (q, [])
  else do
    let (q, dropped) ← findTopPrioLevel c (List.finRange kNumPriorityLevels) q
    return (if q.sizePackets = 0 then { q with topActivePrioLevel := none } else q, dropped)

/-- `UpdateAverageQueueTime`. -/
def updateAverageQueueTime (now : Int) : PrioritizedPacketQueue :=
  if now = q.lastUpdateTime then q
  else
    let delta := now - q.lastUpdateTime
    { q with
      pauseTimeSum := if q.paused then q.pauseTimeSum + delta else q.pauseTimeSum
      queueTimeSum := if q.paused then q.queueTimeSum else q.queueTimeSum + delta * q.sizePackets
      lastUpdateTime := now }

/-- `SetPauseState`. -/
def setPauseState (paused : Bool) (now : Int) : PrioritizedPacketQueue :=
  { q.updateAverageQueueTime now with paused }

/-- The first lines of `Push`: the stream, which is made if there is none. -/
def withStream (enqueueTime : Int) (ssrc : UInt32) : PrioritizedPacketQueue :=
  match q.streams[ssrc]? with
  | some _ => q
  | none => { q with streams := q.streams.insert ssrc { lastEnqueueTime := enqueueTime } }

/-- The iterator for a packet. -/
def insertTime (time : Int) : PrioritizedPacketQueue :=
  { q with enqueueTimes := q.enqueueTimes ++ [⟨q.nextAddress, time⟩], nextAddress := q.nextAddress + 1 }

/-- A packet is counted, and put at the end of its stream. -/
def enqueue (p : QueuedPacket) : Option PrioritizedPacketQueue := do
  let level := c.prioLevel p.packet
  let stream ← q.streams[p.packet.ssrc]?
  return { q with
    sizePackets := q.sizePackets + 1
    sizePacketsPerMediaType := Function.update q.sizePacketsPerMediaType p.packet.packetType
      (q.sizePacketsPerMediaType p.packet.packetType + 1)
    sizePayload := q.sizePayload + p.packetSize
    streams := q.streams.insert p.packet.ssrc (stream.enqueuePacket level p)
    streamsByPrio := if stream.hasPacketsAtPrio level then q.streamsByPrio
      else Function.update q.streamsByPrio level (q.streamsByPrio level ++ [p.packet.ssrc])
    topActivePrioLevel := if q.topActivePrioLevel.all (level < ·) then some level else q.topActivePrioLevel }

/-- The last lines of `Push`: streams without packets are forgotten after a while. -/
def cull (enqueueTime : Int) : PrioritizedPacketQueue :=
  if kTimeout < enqueueTime - q.lastCullingTime then
    { q with
      streams := q.streams.filter fun _ stream =>
        !(stream.isEmpty && decide (stream.lastEnqueueTime + kTimeout < enqueueTime))
      lastCullingTime := enqueueTime }
  else q

/-- `Push`, with the packet as it is queued and the packets that are dropped. -/
def push (enqueueTime : Int) (packet : RtpPacketToSend) :
    Option (PrioritizedPacketQueue × QueuedPacket × List QueuedPacket) := do
  let node : TimeNode := ⟨q.nextAddress, enqueueTime⟩
  let q := (q.withStream enqueueTime packet.ssrc).insertTime enqueueTime
  let (q, dropped) ← q.purgeOldPacketsAtPriorityLevel c (c.prioLevel packet) enqueueTime
  let q := q.updateAverageQueueTime enqueueTime
  let queued : QueuedPacket := ⟨packet, enqueueTime - q.pauseTimeSum, node⟩
  let q ← q.enqueue c queued
  return (q.cull enqueueTime, queued, dropped)

/-- The packet that is popped, with the time it was in the queue, and the packets that are dropped. -/
structure Popped where
  packet : QueuedPacket
  timeInSendQueue : Int
  dropped : List QueuedPacket

/-- `Pop`; there is nothing to pop from an empty queue. -/
def pop : Option (PrioritizedPacketQueue × Option Popped) :=
  if q.sizePackets = 0 then some (q, none)
  else do
    let level ← q.topActivePrioLevel
    let ssrc ← (q.streamsByPrio level).head?
    let stream ← q.streams[ssrc]?
    let packet ← (stream.packets level).head?
    let timeInSendQueue := q.timeInNonPausedState packet
    let rest := (stream.packets level).tail
    let q := q.dequeueFront ssrc stream level [packet] rest
    let queues := (q.streamsByPrio level).tail ++ if rest.isEmpty then [] else [ssrc]
    let q := { q with streamsByPrio := Function.update q.streamsByPrio level queues }
    let (q, dropped) ← if rest.isEmpty then q.maybeUpdateTopPrioLevel c else some (q, [])
    return (q, some ⟨packet, timeInSendQueue, dropped⟩)

/-- The loop of `RemovePacketsForSsrc` over the priorities that are left. -/
def removeLevels (ssrc : UInt32) (packetsByPrio : PriorityLevel → List QueuedPacket) :
    List PriorityLevel → PrioritizedPacketQueue → PrioritizedPacketQueue
  | [], q => q
  | level :: levels, q =>
    if (packetsByPrio level).isEmpty then removeLevels ssrc packetsByPrio levels q
    else
      let q := (packetsByPrio level).foldl dequeuePacketInternal q
      let queues := q.streamsByPrio level
      let queues := if queues.length = 1 then queues.tail else queues.filter (· ≠ ssrc)
      removeLevels ssrc packetsByPrio levels
        { q with streamsByPrio := Function.update q.streamsByPrio level queues }

/-- `RemovePacketsForSsrc`, with the packets that are removed or dropped. -/
def removePacketsForSsrc (ssrc : UInt32) : Option (PrioritizedPacketQueue × List QueuedPacket) := do
  let (q, removed) := match q.streams[ssrc]? with
    | none => (q, [])
    | some stream =>
      let (packetsByPrio, stream) := stream.dequeueAll
      (removeLevels ssrc packetsByPrio (List.finRange kNumPriorityLevels)
        { q with streams := q.streams.insert ssrc stream },
        (List.finRange kNumPriorityLevels).flatMap packetsByPrio)
  let (q, dropped) ← q.maybeUpdateTopPrioLevel c
  return (q, removed ++ dropped)

/-! ## What the queue tells -/

/-- `OldestEnqueueTime`; of an empty queue there is none. -/
def oldestEnqueueTime : Option Int := q.enqueueTimes.head?.map (·.time)

/-- `AverageQueueTime`. -/
def averageQueueTime : Int := if q.sizePackets = 0 then 0 else q.queueTimeSum.tdiv q.sizePackets

/-- `HasKeyframePackets`. -/
def hasKeyframePackets (ssrc : UInt32) : Bool :=
  (q.streams[ssrc]?).any fun stream => decide (0 < stream.numKeyframePackets)

end PrioritizedPacketQueue

end CrossTransfer.Minirtc

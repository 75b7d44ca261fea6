import PlainScore.Audio

/-! The handoff between two threads: a single slot with a sending and a receiving end.
A sender waits while the slot is full and learns when the receiver is gone; what is in the
slot can still be received when the sender is gone. -/
namespace PlainScore

inductive Chunk where
  | samples (bar : List Sample)
  | endOfStream
  deriving DecidableEq

structure Handoff where
  slot : Option Chunk := none
  sender : Bool := true
  receiver : Bool := true
  deriving DecidableEq

namespace Handoff

inductive Sent where
  | sent
  | full
  | closed
  deriving DecidableEq, Repr

inductive Received where
  | chunk (c : Chunk)
  | empty
  | disconnected
  deriving DecidableEq

def trySend (h : Handoff) (c : Chunk) : Sent × Handoff :=
  if ¬ h.receiver then (.closed, h)
  else match h.slot with
    | some _ => (.full, h)
    | none => (.sent, { h with slot := some c })

def tryReceive (h : Handoff) : Received × Handoff :=
  match h.slot with
  | some c => (.chunk c, { h with slot := none })
  | none => if h.sender then (.empty, h) else (.disconnected, h)

/-- A sender need not wait: the slot is free or nobody will ever empty it. -/
def canSend (h : Handoff) : Bool := h.slot.isNone || !h.receiver

/-- A receiver need not wait: there is a chunk or there never will be one. -/
def canReceive (h : Handoff) : Bool := h.slot.isSome || !h.sender

def dropSender (h : Handoff) : Handoff := { h with sender := false }

/-- What is in the slot goes with the receiver. -/
def dropReceiver (h : Handoff) : Handoff := { h with receiver := false, slot := none }

/-! ### Both ends in one hand -/

inductive Request where
  | send (c : Chunk)
  | receive
  | dropSender
  | dropReceiver

inductive Answer where
  | sent (s : Sent)
  | noSender
  | received (r : Received)
  | noReceiver
  | dropped (wasThere : Bool)

def request (h : Handoff) : Request → Answer × Handoff
  | .send c =>
    if h.sender then let (s, h) := h.trySend c; (.sent s, h) else (.noSender, h)
  | .receive =>
    if h.receiver then let (r, h) := h.tryReceive; (.received r, h) else (.noReceiver, h)
  | .dropSender => (.dropped h.sender, h.dropSender)
  | .dropReceiver => (.dropped h.receiver, h.dropReceiver)

def requestAll (h : Handoff) : List Request → List Answer
  | [] => []
  | r :: rs => let (a, h) := h.request r; a :: h.requestAll rs

end Handoff

end PlainScore

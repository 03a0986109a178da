import Mathlib.Data.List.Perm.Basic
import Mathlib.Data.List.Perm.Subperm

namespace StudyLinuxKernel.Library.DatagramNetwork

variable {M N : Type*}

theorem subperm_map {l l' : List M} (h : l.Subperm l') (f : M → N) :
    (l.map f).Subperm (l'.map f) := by
  rcases h with ⟨chosen, hperm, hsublist⟩
  exact ⟨chosen.map f, hperm.map f, hsublist.map f⟩

structure Network (M : Type*) where
  inFlight : List M
  sent : List M
  received : List M

/-- What happens to a datagram on its way. -/
inductive Fault where
  | drop (i : Nat)
  | duplicate (i : Nat)
  deriving DecidableEq

def Network.empty : Network M := { inFlight := [], sent := [], received := [] }

def Network.send (net : Network M) (messages : List M) : Network M where
  inFlight := net.inFlight ++ messages
  sent := net.sent ++ messages
  received := net.received

/-- Any of the datagrams in flight may be the next that arrives. -/
def Network.receive (net : Network M) (i : Nat) : Option (M × Network M) :=
  (net.inFlight[i]?).map fun message => (message, {
    inFlight := net.inFlight.eraseIdx i
    sent := net.sent
    received := net.received ++ [message] })

def Network.suffer (net : Network M) : Fault → Option (Network M)
  | .drop i =>
      (net.inFlight[i]?).map fun _ => { net with inFlight := net.inFlight.eraseIdx i }
  | .duplicate i =>
      (net.inFlight[i]?).map fun message => { net with inFlight := net.inFlight ++ [message] }

/-- Nothing is on its way or has arrived that was not sent. -/
structure Network.Genuine (net : Network M) : Prop where
  inFlight : ∀ message ∈ net.inFlight, message ∈ net.sent
  received : ∀ message ∈ net.received, message ∈ net.sent

/-- What has arrived and what is on its way was sent as often. -/
def Network.Accounted (net : Network M) : Prop :=
  (net.received ++ net.inFlight).Subperm net.sent

/-- All that was sent has arrived or is on its way. -/
def Network.Conserved (net : Network M) : Prop :=
  (net.received ++ net.inFlight).Perm net.sent

theorem genuine_empty : (Network.empty : Network M).Genuine := ⟨nofun, nofun⟩

theorem accounted_empty : (Network.empty : Network M).Accounted := List.Subperm.refl []

theorem conserved_empty : (Network.empty : Network M).Conserved := List.Perm.refl []

theorem Network.receive_eq_some {net net' : Network M} {i : Nat} {message : M}
    (h : net.receive i = some (message, net')) :
    message ∈ net.inFlight ∧ net'.sent = net.sent ∧ net'.received = net.received ++ [message] ∧
      (message :: net'.inFlight).Perm net.inFlight := by
  rcases Option.map_eq_some_iff.mp h with ⟨found, hfound, heq⟩
  obtain ⟨hi, rfl⟩ := List.getElem?_eq_some_iff.mp hfound
  obtain ⟨rfl, rfl⟩ := Prod.mk.inj heq
  exact ⟨List.getElem_mem hi, rfl, rfl, List.getElem_cons_eraseIdx_perm hi⟩

theorem Network.suffer_eq_some {net net' : Network M} {fault : Fault}
    (h : net.suffer fault = some net') :
    net'.sent = net.sent ∧ net'.received = net.received := by
  cases fault with
  | drop i =>
      rcases Option.map_eq_some_iff.mp h with ⟨_, _, rfl⟩
      exact ⟨rfl, rfl⟩
  | duplicate i =>
      rcases Option.map_eq_some_iff.mp h with ⟨_, _, rfl⟩
      exact ⟨rfl, rfl⟩

theorem Network.Genuine.send {net : Network M} (h : net.Genuine) (messages : List M) :
    (net.send messages).Genuine where
  inFlight := fun _ hmem => by
    rcases List.mem_append.mp hmem with hmem | hmem
    · exact List.mem_append_left _ (h.inFlight _ hmem)
    · exact List.mem_append_right _ hmem
  received := fun _ hmem => List.mem_append_left _ (h.received _ hmem)

theorem Network.Genuine.receive {net net' : Network M} (h : net.Genuine) {i : Nat} {message : M}
    (hreceive : net.receive i = some (message, net')) : net'.Genuine := by
  obtain ⟨hmem, hsent, hreceived, hperm⟩ := Network.receive_eq_some hreceive
  refine ⟨fun other hother => ?_, fun other hother => ?_⟩
  · rw [hsent]
    exact h.inFlight other (hperm.subset (List.mem_cons_of_mem _ hother))
  · rw [hreceived, List.mem_append, List.mem_singleton] at hother
    rw [hsent]
    rcases hother with hother | rfl
    · exact h.received other hother
    · exact h.inFlight other hmem

theorem Network.Genuine.suffer {net net' : Network M} (h : net.Genuine) {fault : Fault}
    (hsuffer : net.suffer fault = some net') : net'.Genuine := by
  cases fault with
  | drop i =>
      rcases Option.map_eq_some_iff.mp hsuffer with ⟨_, _, rfl⟩
      exact ⟨fun other hother => h.inFlight other (List.mem_of_mem_eraseIdx hother), h.received⟩
  | duplicate i =>
      rcases Option.map_eq_some_iff.mp hsuffer with ⟨message, hmessage, rfl⟩
      refine ⟨fun other hother => ?_, h.received⟩
      rcases List.mem_append.mp hother with hother | hother
      · exact h.inFlight other hother
      · rw [List.mem_singleton.mp hother]
        exact h.inFlight message (List.mem_of_getElem? hmessage)

theorem Network.Conserved.send {net : Network M} (h : net.Conserved) (messages : List M) :
    (net.send messages).Conserved := by
  change (net.received ++ (net.inFlight ++ messages)).Perm (net.sent ++ messages)
  rw [← List.append_assoc]
  exact h.append_right messages

theorem Network.perm_of_receive {net net' : Network M} {i : Nat} {message : M}
    (hreceive : net.receive i = some (message, net')) :
    (net'.received ++ net'.inFlight).Perm (net.received ++ net.inFlight) := by
  obtain ⟨_, _, hreceived, hperm⟩ := Network.receive_eq_some hreceive
  rw [hreceived, List.append_assoc]
  exact hperm.append_left net.received

theorem Network.Conserved.receive {net net' : Network M} (h : net.Conserved) {i : Nat}
    {message : M} (hreceive : net.receive i = some (message, net')) : net'.Conserved := by
  have hsent := (Network.receive_eq_some hreceive).2.1
  rw [Network.Conserved, hsent]
  exact (Network.perm_of_receive hreceive).trans h

theorem Network.Accounted.send {net : Network M} (h : net.Accounted) (messages : List M) :
    (net.send messages).Accounted := by
  change (net.received ++ (net.inFlight ++ messages)).Subperm (net.sent ++ messages)
  rw [← List.append_assoc]
  exact (List.subperm_append_right messages).mpr h

theorem Network.Accounted.receive {net net' : Network M} (h : net.Accounted) {i : Nat}
    {message : M} (hreceive : net.receive i = some (message, net')) : net'.Accounted := by
  have hsent := (Network.receive_eq_some hreceive).2.1
  rw [Network.Accounted, hsent]
  exact (Network.perm_of_receive hreceive).subperm.trans h

theorem Network.Accounted.drop {net net' : Network M} (h : net.Accounted) {i : Nat}
    (hdrop : net.suffer (.drop i) = some net') : net'.Accounted := by
  rcases Option.map_eq_some_iff.mp hdrop with ⟨_, _, rfl⟩
  have hless : (net.inFlight.eraseIdx i).Sublist net.inFlight := List.eraseIdx_sublist _ i
  exact (hless.append_left net.received).subperm.trans h

end StudyLinuxKernel.Library.DatagramNetwork

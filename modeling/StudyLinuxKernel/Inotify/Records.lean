import StudyLinuxKernel.Libc.CharArray
import StudyLinuxKernel.Library.LittleEndian
import StudyLinuxKernel.Library.RecordWalk

namespace StudyLinuxKernel.Inotify.Records

open StudyLinuxKernel.Libc.CharArray
open StudyLinuxKernel.Libc.Text
open StudyLinuxKernel.Library.LittleEndian
open StudyLinuxKernel.Library.RecordWalk

def IN_CLOSE_WRITE : UInt32 := 0x00000008
def IN_CLOSE_NOWRITE : UInt32 := 0x00000010
def IN_OPEN : UInt32 := 0x00000020
def IN_CREATE : UInt32 := 0x00000100
def IN_DELETE : UInt32 := 0x00000200
def IN_ISDIR : UInt32 := 0x40000000

/-- The members of `struct inotify_event` in front of `name`. -/
structure EventHeader where
  wd : Int32
  mask : UInt32
  cookie : UInt32
  len : UInt32
  deriving DecidableEq, Repr

def sizeofInotifyEvent : Nat := 16

/-- The 32-bit member at the offset `i` of a record. -/
def member (record : Bytes) (i : Nat) : UInt32 :=
  UInt32.ofNat (leValue ((record.drop i).take 4))

def eventAt (record : Bytes) : Option EventHeader :=
  if sizeofInotifyEvent ≤ record.length then
    some
      { wd := (member record 0).toInt32
        mask := member record 4
        cookie := member record 8
        len := member record 12 }
  else none

def EventHeader.encode (header : EventHeader) : Bytes :=
  leBytes 4 header.wd.toUInt32.toNat ++ leBytes 4 header.mask.toNat ++
    leBytes 4 header.cookie.toNat ++ leBytes 4 header.len.toNat

/-- An event as the kernel reports it.  The name, if there is one, is padded
with at least one NUL. -/
structure InotifyEvent where
  wd : Int32
  mask : UInt32
  cookie : UInt32
  name : Bytes
  length_name : name.length < 2 ^ 32
  terminated : name ≠ [] → 0 ∈ name

def InotifyEvent.header (event : InotifyEvent) : EventHeader :=
  { wd := event.wd
    mask := event.mask
    cookie := event.cookie
    len := UInt32.ofNat event.name.length }

/-- The record of an event: the header and `len` bytes of name. -/
def InotifyEvent.encode (event : InotifyEvent) : Bytes := event.header.encode ++ event.name

@[simp] theorem EventHeader.length_encode (header : EventHeader) :
    header.encode.length = sizeofInotifyEvent := by
  simp [encode, sizeofInotifyEvent]

theorem InotifyEvent.length_encode (event : InotifyEvent) :
    event.encode.length = sizeofInotifyEvent + event.name.length := by
  rw [encode, List.length_append, EventHeader.length_encode]

theorem InotifyEvent.toNat_len (event : InotifyEvent) :
    event.header.len.toNat = event.name.length :=
  UInt32.toNat_ofNat_of_lt' event.length_name

theorem InotifyEvent.len_eq_zero_iff (event : InotifyEvent) :
    event.header.len = 0 ↔ event.name = [] := by
  rw [← UInt32.toNat_inj, event.toNat_len]
  exact List.length_eq_zero_iff

theorem stringAt_name (front : Bytes) (event : InotifyEvent) (behind : Bytes) :
    stringAt (front ++ event.encode ++ behind) (front.length + sizeofInotifyEvent) =
      stringAt (event.name ++ behind) 0 := by
  have hdrop : (front ++ event.encode ++ behind).drop (front.length + sizeofInotifyEvent) =
      event.name ++ behind := by
    rw [List.append_assoc, ← List.drop_drop, List.drop_left, InotifyEvent.encode,
      List.append_assoc, List.drop_left' event.header.length_encode]
  rw [stringAt, stringAt, hdrop, List.drop_zero]

theorem stringAt_of_named {event : InotifyEvent} (h : event.name ≠ []) (behind : Bytes) :
    stringAt (event.name ++ behind) 0 = some (cStr event.name) := by
  have hzero := event.terminated h
  rw [stringAt, List.drop_zero, if_pos (List.mem_append_left behind hzero),
    cStr_append_of_mem hzero]

theorem member_eq {front rest : Bytes} {i : Nat} (value : UInt32) (hfront : front.length = i) :
    member (front ++ (leBytes 4 value.toNat ++ rest)) i = value := by
  rw [member, ← hfront, List.drop_left, List.take_left' (length_leBytes 4 _),
    leValue_leBytes_of_lt value.toNat_lt, UInt32.ofNat_toNat]

theorem eventAt_encode (header : EventHeader) (rest : Bytes) :
    eventAt (header.encode ++ rest) = some header := by
  have hlength : sizeofInotifyEvent ≤ (header.encode ++ rest).length := by
    rw [List.length_append, header.length_encode]
    omega
  have hwd : member (header.encode ++ rest) 0 = header.wd.toUInt32 := by
    rw [EventHeader.encode, List.append_assoc, List.append_assoc, List.append_assoc]
    exact @member_eq [] _ 0 header.wd.toUInt32 rfl
  have hmask : member (header.encode ++ rest) 4 = header.mask := by
    rw [EventHeader.encode, List.append_assoc, List.append_assoc, List.append_assoc]
    exact member_eq header.mask (length_leBytes 4 _)
  have hcookie : member (header.encode ++ rest) 8 = header.cookie := by
    rw [EventHeader.encode, List.append_assoc, List.append_assoc]
    exact member_eq header.cookie (by simp)
  have hlen : member (header.encode ++ rest) 12 = header.len := by
    rw [EventHeader.encode, List.append_assoc]
    exact member_eq header.len (by simp)
  rw [eventAt, if_pos hlength, hwd, hmask, hcookie, hlen, Int32.toInt32_toUInt32]

/-- The records in the buffer; the increment of the loop is
`sizeof(struct inotify_event) + event->len`. -/
def inotifyLayout : Layout InotifyEvent UInt8 EventHeader where
  encode := InotifyEvent.encode
  head := InotifyEvent.header
  header := eventAt
  size event := sizeofInotifyEvent + event.len.toNat
  header_encode event rest := by
    rw [InotifyEvent.encode, List.append_assoc, eventAt_encode]
  size_head event := by rw [event.toNat_len, event.length_encode]
  encode_ne_nil event := by
    intro h
    have hlength := event.length_encode
    rw [h, List.length_nil, sizeofInotifyEvent] at hlength
    omega

end StudyLinuxKernel.Inotify.Records

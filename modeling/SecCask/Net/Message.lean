import Mathlib.Data.List.Basic

/-!
# SecCask.Net.Message

The messages of `message.h` and the bytes that carry them. A `std::string` is a
byte string, so everything here is a list of bytes. `Message.toString` is
`Message::ToString`; `frame` is what one `DoWrite` puts on the socket: the
`uint32_t` length, byte-swapped by `util::SwapEndian`, and the text.
-/

namespace SecCask.Net

/-- `std::string`. -/
abbrev CxxString := List UInt8

/-- The bytes of a literal of the source. -/
def lit (s : String) : CxxString := s.toUTF8.data.toList

/-! ### `uint32_t` in memory -/

/-- The memory of a `uint32_t` on a little-endian host. -/
def leBytes (u : UInt32) : List UInt8 :=
  [UInt8.ofNat u.toNat, UInt8.ofNat (u.toNat / 0x100), UInt8.ofNat (u.toNat / 0x10000),
    UInt8.ofNat (u.toNat / 0x1000000)]

/-- The `uint32_t` that four bytes of memory hold. -/
def ofLeBytes : List UInt8 → UInt32
  | [a, b, c, d] =>
      UInt32.ofNat (a.toNat + 0x100 * b.toNat + 0x10000 * c.toNat + 0x1000000 * d.toNat)
  | _ => 0

/-- `util::SwapEndian`: copy the bytes of the source union in reverse. -/
def swapEndian (u : UInt32) : UInt32 := ofLeBytes (leBytes u).reverse

@[simp] theorem leBytes_length (u : UInt32) : (leBytes u).length = 4 := rfl

theorem leBytes_ofLeBytes (a b c d : UInt8) :
    leBytes (ofLeBytes [a, b, c, d]) = [a, b, c, d] := by
  have ha := a.toNat_lt
  have hb := b.toNat_lt
  have hc := c.toNat_lt
  have hd := d.toNat_lt
  have hsum : a.toNat + 0x100 * b.toNat + 0x10000 * c.toNat + 0x1000000 * d.toNat < 2 ^ 32 := by
    omega
  simp only [leBytes, ofLeBytes, UInt32.toNat_ofNat', Nat.mod_eq_of_lt hsum, List.cons.injEq,
    and_true, ← UInt8.toNat_inj, UInt8.toNat_ofNat']
  omega

theorem ofLeBytes_leBytes (u : UInt32) : ofLeBytes (leBytes u) = u := by
  have hu := u.toNat_lt
  simp only [leBytes, ofLeBytes, ← UInt32.toNat_inj, UInt32.toNat_ofNat', UInt8.toNat_ofNat']
  omega

/-- The swapped word is the original's bytes in reverse: big-endian on the wire. -/
theorem leBytes_swapEndian (u : UInt32) : leBytes (swapEndian u) = (leBytes u).reverse := by
  simp only [swapEndian, leBytes, List.reverse_cons, List.reverse_nil, List.nil_append,
    List.cons_append]
  exact leBytes_ofLeBytes _ _ _ _

/-! ### Messages -/

structure Message where
  senderId : CxxString
  cmd : CxxString
  args : List CxxString
  deriving DecidableEq, Repr

namespace Message

def kDelimiter : CxxString := lit "%"

/-- `Message::ToString`: `{sender}\r\n{cmd}\r\n{args joined by the delimiter}`. -/
def toString (m : Message) : CxxString :=
  m.senderId ++ lit "\r\n" ++ m.cmd ++ lit "\r\n" ++ List.intercalate kDelimiter m.args

/-- The four length bytes of a frame: `msg.length()` truncated to `uint32_t`, most
significant byte first. -/
def lengthBytes (m : Message) : CxxString :=
  (leBytes (UInt32.ofNat m.toString.length)).reverse

/-- One frame on the socket. -/
def frame (m : Message) : CxxString := m.lengthBytes ++ m.toString

@[simp] theorem lengthBytes_length (m : Message) : m.lengthBytes.length = 4 := rfl

end Message

/-- The frames of a list of messages, back to back. -/
def frames (ms : List Message) : CxxString := ms.flatMap Message.frame

@[simp] theorem frames_nil : frames [] = [] := rfl

@[simp] theorem frames_append (ms ns : List Message) :
    frames (ms ++ ns) = frames ms ++ frames ns := by
  simp [frames]

@[simp] theorem frames_singleton (m : Message) : frames [m] = m.lengthBytes ++ m.toString := by
  simp [frames, Message.frame]

end SecCask.Net

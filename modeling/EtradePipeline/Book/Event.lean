import EtradePipeline.Values

/-! The feed event that passes from the receiver to the order book, with the fixed-size text buffers
that it carries. -/

namespace EtradePipeline

/-- A `char[n]` buffer: the bytes copied to it, with room left for the terminator. -/
structure CharBuf (n : Nat) where
  copied : Bytes
  fits : copied.length < n
  deriving DecidableEq

namespace CharBuf

variable {n : Nat}

/-- Copies at most `n - 1` bytes of `s` and terminates them, as `set_symbol` and `set_src` do. -/
def copy (n : Nat) (positive : 0 < n) (s : Bytes) : CharBuf n :=
  ⟨s.take (n - 1), by rw [List.length_take]; omega⟩

/-- The buffer read as a C string: the bytes before the first NUL. -/
def cstr (b : CharBuf n) : Bytes := b.copied.takeWhile (· ≠ 0)

theorem cstr_length_lt (b : CharBuf n) : b.cstr.length < n :=
  Nat.lt_of_le_of_lt (List.takeWhile_sublist _).length_le b.fits

end CharBuf

abbrev symbolLen : Nat := 32

abbrev srcLen : Nat := 64

structure Event where
  seq : Int
  msgTsMs : Int
  recvTsMs : Int
  latencyMs : Int
  symbol : CharBuf symbolLen
  price : Double
  size : Int
  src : CharBuf srcLen
  deriving DecidableEq

/-- A default-constructed event. -/
instance : Inhabited Event := ⟨⟨0, 0, 0, 0, ⟨[], by decide⟩, .finite 0, 0, ⟨[], by decide⟩⟩⟩

/-- `Event::set_symbol`.  A null pointer is not passed; the empty string has the same effect. -/
def setSymbol (s : Bytes) : CharBuf symbolLen := CharBuf.copy symbolLen (by decide) s

def setSrc (s : Bytes) : CharBuf srcLen := CharBuf.copy srcLen (by decide) s

/-- The symbol as a C string, the key under which the book files the event. -/
def Event.symbolStr (ev : Event) : Bytes := ev.symbol.cstr

end EtradePipeline

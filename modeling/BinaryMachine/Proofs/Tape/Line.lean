import Mathlib.Logic.Function.Basic
import Mathlib.Order.Bounds.Basic
import BinaryMachine.Tape.Session

/-!
# The tape as a line of integer positions

A line assigns a symbol to every integer and remembers the interval that has
been materialised.  Nothing in it is linked: going left or right is adding
minus one or one.  The root is the position zero.
-/

namespace BinaryMachine

def Direction.offset : Direction → Int
  | .left => -1
  | .right => 1

structure Line where
  symbol : Int → Symbol
  lo : Int
  hi : Int

namespace Line

def blank : Line :=
  ⟨fun _ => .zero, 0, 0⟩

def ofSymbols (symbols : List Symbol) : Line where
  symbol p := if 0 ≤ p then symbols.getD p.toNat .zero else .zero
  lo := 0
  hi := (symbols.length - 1 : Nat)

def write (line : Line) (p : Int) (symbol : Symbol) : Line :=
  { line with symbol := Function.update line.symbol p symbol }

/-- Materialises everything up to the position `p`. -/
def stand (line : Line) (p : Int) : Line :=
  { line with lo := min line.lo p, hi := max line.hi p }

def act (line : Line) (p : Int) : Action → Line × Int
  | .write symbol => (line.write p symbol, p)
  | .move direction => (line.stand (p + direction.offset), p + direction.offset)

/-- The symbols from the position `p` on, up to the right end. -/
def symbolsFrom (line : Line) (p : Int) : List Symbol :=
  (List.range (line.hi - p + 1).toNat).map fun i : Nat => line.symbol (p + i)

def symbols (line : Line) : List Symbol :=
  line.symbolsFrom line.lo

def text (line : Line) : String :=
  String.ofList (line.symbols.map Symbol.char)

@[simp] theorem lo_write (line : Line) (p : Int) (symbol : Symbol) :
    (line.write p symbol).lo = line.lo := rfl

@[simp] theorem hi_write (line : Line) (p : Int) (symbol : Symbol) :
    (line.write p symbol).hi = line.hi := rfl

@[simp] theorem lo_stand (line : Line) (p : Int) :
    (line.stand p).lo = min line.lo p := rfl

@[simp] theorem hi_stand (line : Line) (p : Int) :
    (line.stand p).hi = max line.hi p := rfl

@[simp] theorem symbol_stand (line : Line) (p : Int) :
    (line.stand p).symbol = line.symbol := rfl

theorem stand_of_mem (line : Line) {p : Int} (hlo : line.lo ≤ p) (hhi : p ≤ line.hi) :
    line.stand p = line := by
  simp [stand, hlo, hhi]

theorem symbolsFrom_hi (line : Line) :
    line.symbolsFrom line.hi = [line.symbol line.hi] := by
  simp [symbolsFrom]

theorem symbolsFrom_cons (line : Line) {p : Int} (hp : p < line.hi) :
    line.symbolsFrom p = line.symbol p :: line.symbolsFrom (p + 1) := by
  have hlength : (line.hi - p + 1).toNat = (line.hi - (p + 1) + 1).toNat + 1 := by
    omega
  rw [symbolsFrom, hlength, List.range_succ_eq_map]
  simp only [List.map_cons, List.map_map, symbolsFrom]
  congr 1
  · simp
  · apply List.map_congr_left
    intro i _
    simp only [Function.comp_apply]
    congr 1
    push_cast
    omega

theorem symbols_write (line : Line) {p : Int} (hlo : line.lo ≤ p) (symbol : Symbol) :
    (line.write p symbol).symbols = line.symbols.set (p - line.lo).toNat symbol := by
  apply List.ext_getElem
  · simp [symbols, symbolsFrom]
  · intro i _ _
    have hposition : line.lo + (i : Int) = p ↔ (p - line.lo).toNat = i := by
      omega
    simp [symbols, symbolsFrom, write, Function.update_apply, List.getElem_set, hposition]

theorem symbols_stand_left (line : Line) (hle : line.lo ≤ line.hi) :
    (line.stand (line.lo - 1)).symbols = line.symbol (line.lo - 1) :: line.symbols := by
  have hlo : (line.stand (line.lo - 1)).lo = line.lo - 1 := min_eq_right (by omega)
  have hhi : (line.stand (line.lo - 1)).hi = line.hi := max_eq_left (by omega)
  rw [symbols, hlo, symbolsFrom_cons _ (by omega), symbol_stand, Int.sub_add_cancel]
  simp only [symbols, symbolsFrom, hhi, symbol_stand]

theorem symbols_stand_right (line : Line) (hle : line.lo ≤ line.hi) :
    (line.stand (line.hi + 1)).symbols = line.symbols ++ [line.symbol (line.hi + 1)] := by
  have hlo : (line.stand (line.hi + 1)).lo = line.lo := min_eq_left (by omega)
  have hhi : (line.stand (line.hi + 1)).hi = line.hi + 1 := max_eq_right (by omega)
  have hlength : (line.hi + 1 - line.lo + 1).toNat = (line.hi - line.lo + 1).toNat + 1 := by
    omega
  have hlast : line.lo + ((line.hi - line.lo + 1).toNat : Int) = line.hi + 1 := by
    omega
  simp only [symbols, symbolsFrom, hlo, hhi, hlength, List.range_succ, List.map_append,
    List.map_cons, List.map_nil, hlast, symbol_stand]

theorem length_symbols (line : Line) :
    line.symbols.length = (line.hi - line.lo + 1).toNat := by
  simp [symbols, symbolsFrom]

theorem getElem?_symbols (line : Line) {p : Int} (hlo : line.lo ≤ p) (hhi : p ≤ line.hi) :
    line.symbols[(p - line.lo).toNat]? = some (line.symbol p) := by
  have hrange : (p - line.lo).toNat < (line.hi - line.lo + 1).toNat := by
    omega
  simp only [symbols, symbolsFrom, List.getElem?_map, List.getElem?_range hrange,
    Option.map_some]
  congr 2
  omega

theorem length_text (line : Line) :
    line.text.length = (line.hi - line.lo + 1).toNat := by
  simp [text, length_symbols]

theorem getElem?_text (line : Line) {p : Int} (hlo : line.lo ≤ p) (hhi : p ≤ line.hi) :
    line.text.toList[(p - line.lo).toNat]? = some (line.symbol p).char := by
  simp [text, line.getElem?_symbols hlo hhi]

end Line

end BinaryMachine

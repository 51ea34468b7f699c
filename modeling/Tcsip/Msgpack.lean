/-
# Msgpack objects

What the packer writes and the unpacker reads: the objects themselves, since packing and
unpacking are inverse to each other.  Reading a member of the `via` union that the
type does not have gives no value here (`none`), and neither does `strlen` of a NULL
pointer.
-/
import Tcsip.CText

/-- A msgpack object. -/
inductive Obj where
  | nil
  | boolean (b : Bool)
  | integer (i : ℤ)
  | double (bits : UInt64)
  | raw (b : List Byte)
  | array (l : List Obj)
  | map (l : List (Obj × Obj))

/-- `via.i64`. -/
def Obj.i64 : Obj → Option ℤ
  | .integer i => some i
  | _ => none

/-- `via.raw`. -/
def Obj.rawBytes : Obj → Option (List Byte)
  | .raw b => some b
  | _ => none

/-- `via.array`. -/
def Obj.elems : Obj → Option (List Obj)
  | .array l => some l
  | _ => none

/-- `get_str`: an empty raw becomes a NULL pointer, any other one a C string. -/
def getStr (b : List Byte) : Option Text :=
  if 0 < b.length then some (cstr b) else none

/-- `push_cstr_len`: a raw of `strlen` bytes. -/
def pushCstrLen (s : Option Text) : Option Obj := s.map fun t => .raw (bytes t)

/-- An empty string comes back as NULL, any other one as it was. -/
theorem getStr_bytes (t : Text) : getStr (bytes t) = if t = [] then none else some t := by
  by_cases ht : t = []
  · rw [ht]
    rfl
  · have hpos : 0 < (bytes t).length := List.length_pos_iff.mpr (mt bytes_eq_nil.mp ht)
    rw [getStr, if_pos hpos, if_neg ht, cstr_bytes]

/-- A string that was packed is read back, and an empty one as NULL. -/
theorem bind_getStr_bytes (s : Option Text) :
    (s.bind fun t => getStr (bytes t)) = s.filter fun t => decide (t ≠ []) := by
  cases s with
  | none => rfl
  | some t =>
      rw [Option.bind_some, getStr_bytes]
      by_cases ht : t = []
      · rw [if_pos ht, ht]
        rfl
      · rw [if_neg ht, Option.filter_some, if_pos (decide_eq_true ht)]

/-- A list is packed if each of its elements is. -/
theorem mapM_eq_some_map {α β : Type} {f : α → Option β} {g : α → β} {l : List α}
    (h : ∀ x ∈ l, f x = some (g x)) : l.mapM f = some (l.map g) := by
  induction l with
  | nil => rfl
  | cons x l ih =>
      rw [List.mapM_cons, h x List.mem_cons_self, ih fun y hy => h y (List.mem_cons_of_mem x hy)]
      rfl

/-! Stretches of a buffer: two buffers that agree on one, and bytes written over
one. -/
namespace SimpleBinary.Bytes

structure Agree (a b : List UInt8) (start size : Nat) : Prop where
  length : a.length = b.length
  bytes : ∀ i, start ≤ i → i < start + size → a[i]? = b[i]?

theorem Agree.stretch {a b : List UInt8} {start size : Nat} (h : Agree a b start size) :
    (a.drop start).take size = (b.drop start).take size := by
  apply List.ext_getElem?
  intro i
  by_cases hi : i < size
  · rw [List.getElem?_take_of_lt hi, List.getElem?_take_of_lt hi, List.getElem?_drop,
      List.getElem?_drop]
    exact h.bytes (start + i) (by omega) (by omega)
  · rw [List.getElem?_take_eq_none (by omega), List.getElem?_take_eq_none (by omega)]

def patch (buffer : List UInt8) (index : Nat) (bytes : List UInt8) : List UInt8 :=
  buffer.take index ++ (bytes ++ buffer.drop (index + bytes.length))

variable {buffer bytes : List UInt8} {index start size : Nat}

theorem length_patch (h : index + bytes.length ≤ buffer.length) :
    (patch buffer index bytes).length = buffer.length := by
  simp only [patch, List.length_append, List.length_take, List.length_drop]
  omega

theorem agree_patch (h : index + bytes.length ≤ buffer.length)
    (hapart : start + size ≤ index ∨ index + bytes.length ≤ start) :
    Agree (patch buffer index bytes) buffer start size where
  length := length_patch h
  bytes i hlow hhigh := by
    have htake : (buffer.take index).length = index := by
      rw [List.length_take]
      omega
    unfold patch
    by_cases hi : i < index
    · rw [List.getElem?_append_left (by omega), List.getElem?_take_of_lt hi]
    · rw [List.getElem?_append_right (by omega), htake, List.getElem?_append_right (by omega),
        List.getElem?_drop]
      congr 1
      omega

end SimpleBinary.Bytes

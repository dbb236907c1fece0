import Mathlib.Algebra.BigOperators.Group.List.Basic
import Mathlib.Data.List.GetD
import Mathlib.Data.List.OfFn
import Ssos.Foundations.ByteMemory

/-!
# Records in memory

A record is a list of fields one behind the other, each a little-endian number
of its own width in bytes. Encoding a record and reading the fields back in
sequence are inverse to each other.
-/

namespace RecordLayout

open ByteMemory

/-- The `n` bytes from `a` on. -/
def bytesAt (m : Mem) (a n : ℕ) : List UInt8 := List.ofFn fun i : Fin n => m (a + i)

/-- The low `n` bytes of a number, least significant first. -/
def bytesLE : ℕ → ℕ → List UInt8
  | 0, _ => []
  | n + 1, v => UInt8.ofNat v :: bytesLE n (v / 256)

/-- A record, given by the width and the value of each field. -/
def encode (record : List (ℕ × ℕ)) : List UInt8 :=
  record.flatMap fun field => bytesLE field.1 field.2

/-- Read fields of the given widths from `a` on. -/
def readFields : List ℕ → Mem → ℕ → List (ℕ × ℕ)
  | [], _, _ => []
  | w :: ws, m, a => (w, loadLE w m a) :: readFields ws m (a + w)

/-- Write the fields one behind the other. -/
def storeFields : List (ℕ × ℕ) → Mem → ℕ → Mem
  | [], m, _ => m
  | field :: record, m, a => storeFields record (storeLE field.1 m a field.2) (a + field.1)

def widths (record : List (ℕ × ℕ)) : List ℕ := record.map Prod.fst

/-- Every value has room in its field. -/
def Fits (record : List (ℕ × ℕ)) : Prop := ∀ field ∈ record, field.2 < 256 ^ field.1

theorem length_bytesAt (m : Mem) (a n : ℕ) : (bytesAt m a n).length = n := List.length_ofFn

theorem getElem?_bytesAt (m : Mem) (a n i : ℕ) :
    (bytesAt m a n)[i]? = if i < n then some (m (a + i)) else none := by
  rw [bytesAt, List.getElem?_ofFn]
  by_cases hi : i < n
  · rw [if_pos hi, dif_pos hi]
  · rw [if_neg hi, dif_neg hi]

theorem bytesAt_succ (m : Mem) (a n : ℕ) : bytesAt m a (n + 1) = m a :: bytesAt m (a + 1) n := by
  rw [bytesAt, List.ofFn_succ, bytesAt]
  congr 2
  funext i
  rw [Fin.val_succ, Nat.add_assoc, Nat.add_comm 1]

theorem bytesAt_add (m : Mem) (a n k : ℕ) :
    bytesAt m a (n + k) = bytesAt m a n ++ bytesAt m (a + n) k := by
  induction n generalizing a with
  | zero => rw [Nat.zero_add, Nat.add_zero, bytesAt, bytesAt, List.ofFn_zero, List.nil_append]
  | succ n ih =>
    rw [Nat.succ_add, bytesAt_succ, ih, bytesAt_succ, List.cons_append, Nat.add_assoc a 1,
      Nat.add_comm 1]

/-- A memory with the given bytes from `a` on. -/
def memOf (bytes : List UInt8) (a : ℕ) : Mem := fun x => bytes.getD (x - a) 0

theorem bytesAt_memOf (bytes : List UInt8) (a : ℕ) :
    bytesAt (memOf bytes a) a bytes.length = bytes := by
  apply List.ext_getElem (length_bytesAt _ _ _)
  intro i hi hlt
  simp only [bytesAt, List.getElem_ofFn, memOf, Nat.add_sub_cancel_left]
  exact List.getD_eq_getElem _ _ hlt

theorem length_bytesLE (n v : ℕ) : (bytesLE n v).length = n := by
  induction n generalizing v with
  | zero => rfl
  | succ n ih => rw [bytesLE, List.length_cons, ih]

/-- The bytes of a word that was loaded are those of the memory. -/
theorem bytesLE_loadLE (n : ℕ) (m : Mem) (a : ℕ) : bytesLE n (loadLE n m a) = bytesAt m a n := by
  induction n generalizing a with
  | zero => rw [bytesLE, bytesAt, List.ofFn_zero]
  | succ n ih =>
    have hbyte : UInt8.ofNat ((m a).toNat + 256 * loadLE n m (a + 1)) = m a := by
      apply UInt8.toNat_inj.1
      have hlt : (m a).toNat < 256 := (m a).toNat_lt
      rw [UInt8.toNat_ofNat']
      omega
    have hrest : ((m a).toNat + 256 * loadLE n m (a + 1)) / 256 = loadLE n m (a + 1) := by
      have hlt : (m a).toNat < 256 := (m a).toNat_lt
      omega
    rw [loadLE, bytesLE, hbyte, hrest, ih, bytesAt_succ]

/-- Where the bytes of a number stand, it is loaded. -/
theorem loadLE_of_bytesAt {n v : ℕ} {m : Mem} {a : ℕ} (h : bytesAt m a n = bytesLE n v)
    (hv : v < 256 ^ n) : loadLE n m a = v := by
  induction n generalizing a v with
  | zero =>
    rw [loadLE]
    omega
  | succ n ih =>
    rw [bytesAt_succ, bytesLE] at h
    obtain ⟨hbyte, hrest⟩ := List.cons.inj h
    have hdiv : v / 256 < 256 ^ n := by
      rw [Nat.div_lt_iff_lt_mul (by decide), ← pow_succ]
      exact hv
    rw [loadLE, ih hrest hdiv, hbyte, UInt8.toNat_ofNat']
    omega

theorem length_encode (record : List (ℕ × ℕ)) : (encode record).length = (widths record).sum := by
  induction record with
  | nil => rfl
  | cons field record ih =>
    rw [encode, List.flatMap_cons, List.length_append, length_bytesLE, ← encode, ih, widths, widths,
      List.map_cons, List.sum_cons]

/-- Encoding what was read gives the memory back. -/
theorem encode_readFields (ws : List ℕ) (m : Mem) (a : ℕ) :
    encode (readFields ws m a) = bytesAt m a ws.sum := by
  induction ws generalizing a with
  | nil => rw [readFields, List.sum_nil, bytesAt, List.ofFn_zero, encode, List.flatMap_nil]
  | cons w ws ih =>
    rw [readFields, encode, List.flatMap_cons, ← encode, ih, bytesLE_loadLE, List.sum_cons,
      bytesAt_add]

/-- Reading an encoded record gives its fields back. -/
theorem readFields_of_bytesAt {record : List (ℕ × ℕ)} {m : Mem} {a : ℕ} (hfits : Fits record)
    (h : bytesAt m a (widths record).sum = encode record) :
    readFields (widths record) m a = record := by
  induction record generalizing a with
  | nil => rfl
  | cons field record ih =>
    obtain ⟨hfield, hrest⟩ := List.forall_mem_cons.1 hfits
    rw [widths, List.map_cons, List.sum_cons, bytesAt_add, encode, List.flatMap_cons] at h
    obtain ⟨hhead, htail⟩ := List.append_inj h (by rw [length_bytesAt, length_bytesLE])
    rw [widths, List.map_cons, readFields, loadLE_of_bytesAt hhead hfield]
    exact congrArg (field :: ·) (ih hrest htail)

theorem storeFields_apply_of_outside {record : List (ℕ × ℕ)} {m : Mem} {a x : ℕ}
    (h : x < a ∨ a + (widths record).sum ≤ x) : storeFields record m a x = m x := by
  induction record generalizing m a with
  | nil => rfl
  | cons field record ih =>
    rw [widths, List.map_cons, List.sum_cons, ← widths] at h
    rw [storeFields, ih (by omega), storeLE_apply_of_outside (by omega)]

/-- A record that was written is read back. -/
theorem readFields_storeFields {record : List (ℕ × ℕ)} (hfits : Fits record) (m : Mem) (a : ℕ) :
    readFields (widths record) (storeFields record m a) a = record := by
  induction record generalizing m a with
  | nil => rfl
  | cons field record ih =>
    obtain ⟨hfield, hrest⟩ := List.forall_mem_cons.1 hfits
    have hload : loadLE field.1 (storeFields record (storeLE field.1 m a field.2) (a + field.1)) a =
        field.2 :=
      (loadLE_congr fun x _ hlt => storeFields_apply_of_outside (Or.inl hlt)).trans
        (loadLE_storeLE_of_lt m a hfield)
    rw [widths, List.map_cons, readFields, storeFields, hload]
    exact congrArg (field :: ·) (ih hrest _ _)

/-- A record that was written stands there. -/
theorem bytesAt_storeFields {record : List (ℕ × ℕ)} (hfits : Fits record) (m : Mem) (a : ℕ) :
    bytesAt (storeFields record m a) a (widths record).sum = encode record := by
  rw [← encode_readFields, readFields_storeFields hfits]

/-- Reading depends only on the bytes of the record. -/
theorem readFields_congr {ws : List ℕ} {m m' : Mem} {a : ℕ}
    (h : ∀ x, a ≤ x → x < a + ws.sum → m' x = m x) : readFields ws m' a = readFields ws m a := by
  induction ws generalizing a with
  | nil => rfl
  | cons w ws ih =>
    rw [List.sum_cons] at h
    rw [readFields, readFields, loadLE_congr fun x hx hlt => h x hx (by omega),
      ih fun x hx hlt => h x (by omega) (by omega)]

end RecordLayout

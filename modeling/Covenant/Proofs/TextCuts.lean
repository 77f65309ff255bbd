import Covenant.Proofs.TextParts

/-!
# Cuts at byte offsets

A text can be cut between any two of its characters, and nowhere else: a cut inside
a character, or behind the end, has no answer. Whether it has one and which depends
only on the part of the text that is cut out of and on the offsets in that part.
The same holds of bytes, which can be taken from anywhere.
-/

namespace Covenant.Text

/-- The text in front of a byte offset and the text behind it. -/
def splitAt? : Nat → List Char → Option (List Char × List Char)
  | 0, cs => some ([], cs)
  | _ + 1, [] => none
  | n + 1, c :: cs =>
    if c.utf8Size ≤ n + 1 then
      (splitAt? (n + 1 - c.utf8Size) cs).map fun (front, back) => (c :: front, back)
    else none

/-- The text in front of a byte offset. -/
def upTo? (n : Nat) (cs : List Char) : Option (List Char) := (splitAt? n cs).map (·.1)

/-- The text from a byte offset on. -/
def from? (n : Nat) (cs : List Char) : Option (List Char) := (splitAt? n cs).map (·.2)

/-- The text between two byte offsets. -/
def cut? (cs : List Char) (start stop : Nat) : Option (List Char) :=
  if start ≤ stop then (from? start cs).bind (upTo? (stop - start)) else none

/-- The bytes of a text in UTF-8. -/
def bytes (cs : List Char) : List UInt8 := cs.flatMap String.utf8EncodeChar

/-- So many bytes from an offset on. -/
def bytesAt (cs : List Char) (start size : Nat) : List UInt8 := ((bytes cs).drop start).take size

/-! ## Parts -/

variable {cs a b c : List Char} {n x y : Nat}

theorem splitAt?_zero : splitAt? 0 cs = some ([], cs) := by cases cs <;> rfl

theorem splitAt?_cons (d : Char) :
    splitAt? (d.utf8Size + n) (d :: cs) =
      (splitAt? n cs).map fun (front, back) => (d :: front, back) := by
  obtain ⟨k, hk⟩ := Nat.exists_eq_add_of_lt d.utf8Size_pos
  rw [show d.utf8Size + n = (d.utf8Size + n - 1) + 1 by omega, splitAt?, if_pos (by omega),
    show d.utf8Size + n - 1 + 1 - d.utf8Size = n by omega]

/-- A cut behind a part in front. -/
theorem splitAt?_add (a : List Char) :
    splitAt? (width a + n) (a ++ b) =
      (splitAt? n b).map fun (front, back) => (a ++ front, back) := by
  induction a with
  | nil => simp
  | cons d a ih =>
      rw [width_cons, Nat.add_assoc, List.cons_append, splitAt?_cons, ih, Option.map_map]
      rfl

theorem splitAt?_append (a b : List Char) : splitAt? (width a) (a ++ b) = some (a, b) := by
  simpa [splitAt?_zero] using splitAt?_add (n := 0) (b := b) a

/-- A cut in a part in front. -/
theorem splitAt?_of_le (h : n ≤ width a) :
    splitAt? n (a ++ b) = (splitAt? n a).map fun (front, back) => (front, back ++ b) := by
  induction a generalizing n with
  | nil =>
      obtain rfl : n = 0 := Nat.le_zero.mp h
      simp [splitAt?_zero]
  | cons d a ih =>
      rw [width_cons] at h
      cases n with
      | zero => simp [splitAt?_zero]
      | succ n =>
          rw [List.cons_append, splitAt?, splitAt?]
          split
          · rw [ih (by omega), Option.map_map, Option.map_map]
            rfl
          · rfl

theorem from?_append (a b : List Char) : from? (width a) (a ++ b) = some b := by
  rw [from?, splitAt?_append]
  rfl

theorem upTo?_append (a b : List Char) : upTo? (width a) (a ++ b) = some a := by
  rw [upTo?, splitAt?_append]
  rfl

theorem from?_add (a : List Char) : from? (width a + n) (a ++ b) = from? n b := by
  rw [from?, splitAt?_add, Option.map_map]
  rfl

theorem from?_of_le (h : n ≤ width a) : from? n (a ++ b) = (from? n a).map (· ++ b) := by
  rw [from?, splitAt?_of_le h, from?, Option.map_map, Option.map_map]
  rfl

theorem upTo?_of_le (h : n ≤ width a) : upTo? n (a ++ b) = upTo? n a := by
  rw [upTo?, splitAt?_of_le h, Option.map_map]
  rfl

/-- What is behind a cut has the rest of the bytes. -/
theorem width_from? (h : from? n cs = some b) : n + width b = width cs := by
  induction cs generalizing n with
  | nil =>
      cases n with
      | zero =>
          obtain rfl : [] = b := by simpa [from?, splitAt?] using h
          rfl
      | succ n => simp [from?, splitAt?] at h
  | cons d cs ih =>
      cases n with
      | zero =>
          obtain rfl : d :: cs = b := by simpa [from?, splitAt?] using h
          exact Nat.zero_add _
      | succ n =>
          rw [from?, splitAt?] at h
          split at h
          · rw [Option.map_map] at h
            have := ih (n := n + 1 - d.utf8Size) h
            rw [width_cons]
            omega
          · cases h

theorem cut?_of_le (h : y ≤ width a) : cut? (a ++ b) x y = cut? a x y := by
  rw [cut?, cut?]
  split
  · next hxy =>
      rw [from?_of_le (Nat.le_trans hxy h)]
      cases hfrom : from? x a with
      | none => rfl
      | some back =>
          have := width_from? hfrom
          exact upTo?_of_le (by omega)
  · rfl

theorem cut?_add (a : List Char) : cut? (a ++ b) (width a + x) (width a + y) = cut? b x y := by
  simp only [cut?, from?_add, Nat.add_le_add_iff_left, Nat.add_sub_add_left]

theorem cut?_self (cs : List Char) : cut? cs 0 (width cs) = some cs := by
  have h := upTo?_append cs []
  rw [List.append_nil] at h
  simpa [cut?, from?, splitAt?_zero] using h

theorem length_bytes (cs : List Char) : (bytes cs).length = width cs := by
  induction cs with
  | nil => rfl
  | cons d cs ih =>
      rw [bytes, List.flatMap_cons, List.length_append, String.length_utf8EncodeChar, width_cons]
      exact congrArg _ ih

theorem bytes_append (a b : List Char) : bytes (a ++ b) = bytes a ++ bytes b :=
  List.flatMap_append ..

namespace At

variable {src t : List Char} {pos : Nat}

/-- What is cut out of a part can be cut out of the whole. -/
theorem cut?_eq (h : At src pos t) (hy : y ≤ width t) :
    cut? src (pos + x) (pos + y) = cut? t x y := by
  obtain ⟨before, after, rfl, rfl⟩ := h
  rw [List.append_assoc, cut?_add, cut?_of_le hy]

theorem cut?_self (h : At src pos t) : cut? src pos (pos + width t) = some t := by
  have := h.cut?_eq (x := 0) (Nat.le_refl (width t))
  rw [Nat.add_zero] at this
  rw [this, Text.cut?_self]

/-- The bytes of a part are bytes of the whole. -/
theorem bytesAt_eq (h : At src pos t) (hy : x + n ≤ width t) :
    bytesAt src (pos + x) n = bytesAt t x n := by
  obtain ⟨before, after, rfl, rfl⟩ := h
  have hx : x ≤ (bytes t).length := by
    rw [length_bytes]
    omega
  rw [bytesAt, bytesAt, List.append_assoc, bytes_append, ← length_bytes before, ← List.drop_drop,
    List.drop_left, bytes_append, List.drop_append_of_le_length hx,
    List.take_append_of_le_length (by rw [List.length_drop, length_bytes]; omega)]

/-- What stands in a text stands in the part behind what is in front of it. -/
theorem of_append (front : List Char) (h : At (front ++ src) (width front + pos) t) :
    At src pos t := by
  obtain ⟨before, after, heq, hpos⟩ := h
  rw [List.append_assoc] at heq
  rcases List.append_eq_append_iff.mp heq with ⟨more, rfl, hsrc⟩ | ⟨more, rfl, hafter⟩
  · rw [width_append] at hpos
    exact ⟨more, after, by rw [hsrc, List.append_assoc], by omega⟩
  · rw [width_append] at hpos
    cases more with
    | nil => exact ⟨[], after, hafter.symm, by simp at hpos; simp [hpos]⟩
    | cons d more =>
        have := width_pos (List.cons_ne_nil d more)
        omega

end At

end Covenant.Text

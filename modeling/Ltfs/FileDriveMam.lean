import Ltfs.FileDriveCrash

namespace Ltfs.FileDriveMam

open Format FileDrive FileDriveSpec FileDriveStores FileDriveRun Cassette

/-- `TC_MAM_PAGE_COHERENCY` -/
def coherencyId : Nat := 0x080C

/-- `TC_MAM_PAGE_COHERENCY_SIZE` -/
def coherencySize : Nat := 0x46

/-- `struct tc_coherency` -/
structure TcCoherency where
  volumeChangeRef : UInt64
  count : UInt64
  setId : UInt64
  uuid : Fin 37 → UInt8
  version : UInt8

/-- "LTFS" with its NUL -/
def signature : Bytes := [76, 84, 70, 83, 0]

/-- The buffer of `tape_set_cart_coherency` up to the application client specific information. -/
def coherencyHead (c : TcCoherency) : Bytes :=
  Drive.toBe 2 coherencyId ++ 0 :: (Drive.toBe 2 coherencySize ++ 8 :: (Drive.toBe 8 c.volumeChangeRef.toNat ++
    (Drive.toBe 8 c.count.toNat ++ Drive.toBe 8 c.setId.toNat)))

/-- The application client specific information, with its length. -/
def clientInformation (c : TcCoherency) : Bytes :=
  0 :: 43 :: (signature ++ (List.ofFn c.uuid ++ [c.version]))

def coherencyData (c : TcCoherency) : Bytes := coherencyHead c ++ clientInformation c

/-- `filedebug_read_attribute` into a buffer that held `stack`. -/
def readBuffer (d : Drive) (p : Fin 2) (id : Nat) (stack : Bytes) : Option Bytes :=
  (d.readAttribute p id stack.length).map fun data => data ++ stack.drop data.length

/-- The `width` bytes of a buffer from byte `i` on, as a number. -/
def field (buf : Bytes) (i width : Nat) : Nat := Drive.beTo ((buf.drop i).take width)

/-- `tape_set_cart_coherency` -/
def tapeSetCartCoherency (d : Drive) (p : Fin 2) (c : TcCoherency) : Drive :=
  Drive.writeAttribute p (coherencyData c) (coherencyData c).length 0 d

/-- `tape_get_volume_change_reference`; the greatest 32-bit number stands for no reference. -/
def tapeGetVolumeChangeReference (d : Drive) (stack : Bytes) : Except Edev Nat :=
  match readBuffer d part0 Drive.vcrId stack with
  | none => .error .cmPerm
  | some buf => .ok (if field buf 5 4 = 2 ^ 32 - 1 then 2 ^ 64 - 1 else field buf 5 4)

section Numbers

theorem beTo_concat (l : Bytes) (b : UInt8) : Drive.beTo (l ++ [b]) = 256 * Drive.beTo l + b.toNat := by
  unfold Drive.beTo
  rw [List.foldl_append]
  rfl

theorem beTo_toBe (width n : Nat) : Drive.beTo (Drive.toBe width n) = n % 256 ^ width := by
  induction width generalizing n with
  | zero => simp [Drive.toBe, Drive.beTo, Nat.mod_one]
  | succ width ih =>
    have hlow : (UInt8.ofNat (n % 256)).toNat = n % 256 := by
      rw [UInt8.toNat_ofNat']
      omega
    unfold Drive.toBe
    rw [beTo_concat, ih, hlow, Nat.pow_succ', Nat.mod_mul]
    omega

theorem length_toBe (width n : Nat) : (Drive.toBe width n).length = width := by
  induction width generalizing n with
  | zero => rfl
  | succ width ih =>
    unfold Drive.toBe
    rw [List.length_append, ih]
    rfl

variable {l r : Bytes} {i k width : Nat}

theorem field_append (h : l.length = k) (hi : k ≤ i) : field (l ++ r) i width = field r (i - k) width := by
  unfold field
  rw [List.drop_append, List.drop_eq_nil_of_le (by omega), h, List.nil_append]

theorem field_cons (b : UInt8) (hi : 0 < i) : field (b :: r) i width = field r (i - 1) width :=
  field_append (l := [b]) rfl hi

theorem field_toBe (width n : Nat) (r : Bytes) : field (Drive.toBe width n ++ r) 0 width = n % 256 ^ width := by
  unfold field
  rw [List.drop_zero, List.take_append_of_le_length (Nat.le_of_eq (length_toBe width n).symm),
    List.take_of_length_le (Nat.le_of_eq (length_toBe width n)), beTo_toBe]

/-- A field that lies in front of the rest. -/
theorem field_front (r : Bytes) (h : i + width ≤ l.length) : field (l ++ r) i width = field l i width := by
  unfold field
  rw [List.drop_append_of_le_length (by omega), List.take_append_of_le_length (by rw [List.length_drop]; omega)]

end Numbers

theorem length_coherencyHead (c : TcCoherency) : (coherencyHead c).length = 30 := by
  simp [coherencyHead, length_toBe]

theorem length_clientInformation (c : TcCoherency) : (clientInformation c).length = 45 := by
  simp [clientInformation, signature]

theorem length_coherencyData (c : TcCoherency) : (coherencyData c).length = 75 := by
  rw [coherencyData, List.length_append, length_coherencyHead, length_clientInformation]

/-- A field of the head lies in front of the client information. -/
theorem field_head (c : TcCoherency) (h : i + width ≤ 30) :
    field (coherencyData c) i width = field (coherencyHead c) i width :=
  field_front _ (by rw [length_coherencyHead]; exact h)

theorem field_id (c : TcCoherency) : field (coherencyData c) 0 2 = coherencyId := by
  rw [field_head c (by decide), coherencyHead, field_toBe]
  rfl

theorem field_size (c : TcCoherency) : field (coherencyData c) 3 2 = coherencySize := by
  rw [field_head c (by decide), coherencyHead, field_append (length_toBe 2 _) (by decide), field_cons _ (by decide),
    field_toBe]
  rfl

section Attributes

variable {d e : Drive} {p q : Fin 2} {j id fuel : Nat} {x : Command} {o : Outcome}

theorem attr_createAttr (p id : Nat) (content : Bytes) (d : Drive) (i j : Nat) :
    attr (d.create (makeAttrname p id) content) i j =
      if makeAttrname i j = makeAttrname p id then some content else attr d i j := by
  have hchange : ∀ (v : Option Bytes) (d : Drive), attr (d.change (makeAttrname p id) v) i j =
      if makeAttrname i j = makeAttrname p id then v else attr d i j := by
    intro v d
    exact Function.update_apply _ _ _ _
  unfold Drive.create
  split
  · rename_i h
    rw [hchange, h]
  · rw [hchange, hchange]
    split <;> rfl

/-- A buffer that holds one attribute goes to the file of this attribute. -/
theorem writeAttribute_one {buf : Bytes} (hid : field buf 0 2 = id) (hsize : buf.length = field buf 3 2 + 5) :
    Drive.writeAttribute p buf buf.length 0 d = d.create (makeAttrname p id) buf := by
  have hpos : ¬ buf.length ≤ 0 := by omega
  have hsucc : buf.length = (buf.length - 1) + 1 := by omega
  have hend : ∀ (fuel : Nat) (e : Drive), Drive.writeAttribute p buf fuel buf.length e = e := by
    intro fuel e
    cases fuel with
    | zero => rfl
    | succ fuel => exact if_pos le_rfl
  have hnext : 0 + (Drive.beTo ((buf.drop (0 + 3)).take 2) + 5) = buf.length := by
    rw [hsize]
    exact Nat.zero_add _
  rw [hsucc, Drive.writeAttribute, if_neg hpos]
  change Drive.writeAttribute p buf (buf.length - 1) (0 + (Drive.beTo ((buf.drop (0 + 3)).take 2) + 5))
    (d.create (makeAttrname p (field buf 0 2)) buf) = _
  rw [hnext, hend, hid]

/-- The buffer of `_set_wp` -/
def wpData (wp : Nat) : Bytes :=
  Drive.toBe 2 Drive.vcrId ++ [0] ++ Drive.toBe 2 4 ++ Drive.toBe 4 (wp % 2 ^ 32)

theorem length_wpData (wp : Nat) : (wpData wp).length = 9 := by
  simp [wpData, length_toBe]

theorem field_wpData (wp : Nat) (r : Bytes) : field (wpData wp ++ r) 5 4 = wp % 2 ^ 32 := by
  have hmod : wp % 2 ^ 32 % 256 ^ 4 = wp % 2 ^ 32 := Nat.mod_mod _ _
  have hhead : (Drive.toBe 2 Drive.vcrId ++ [0] ++ Drive.toBe 2 4).length = 5 := by simp [length_toBe]
  rw [field_front r (by rw [length_wpData]), wpData, field_append hhead le_rfl,
    ← List.append_nil (Drive.toBe 4 _), field_toBe, hmod]

theorem setWp_eq (wp : Nat) (d : Drive) : d.setWp wp = d.create (makeAttrname part0 Drive.vcrId) (wpData wp) := by
  have hid : field (wpData wp) 0 2 = Drive.vcrId := by
    rw [wpData, List.append_assoc, List.append_assoc, field_toBe]
    rfl
  have hsize : field (wpData wp) 3 2 = 4 := by
    rw [wpData, List.append_assoc, List.append_assoc, field_append (length_toBe 2 _) (by decide),
      field_append (l := [0]) (k := 1) rfl (by decide), field_toBe]
    rfl
  have hone := writeAttribute_one (p := part0) (d := d) hid (by rw [hsize, length_wpData])
  rw [length_wpData] at hone
  exact hone

/-- The attribute that the drive itself writes. -/
def vcrName : List Char := makeAttrname part0 Drive.vcrId

theorem attr_setWp (wp : Nat) (d : Drive) (i j : Nat) :
    attr (d.setWp wp) i j = if makeAttrname i j = vcrName then some (wpData wp) else attr d i j := by
  rw [setWp_eq]
  exact attr_createAttr _ _ _ _ _ _

theorem attr_raiseWritePass (d : Drive) (i j : Nat) :
    attr d.raiseWritePass i j =
      if makeAttrname i j = vcrName ∧ d.writePassPrev = d.writePass then some (wpData (d.writePass + 1))
      else attr d i j := by
  unfold Drive.raiseWritePass
  by_cases hpass : d.writePassPrev = d.writePass
  · rw [if_pos hpass, attr_setWp]
    simp only [hpass, and_true]
    rfl
  · rw [if_neg hpass, if_neg (fun hc => hpass hc.2)]

theorem attr_removeCurrentRecord (d : Drive) : attr d.removeCurrentRecord = attr d :=
  attr_removeRecord d.part d.block d

end Attributes

end Ltfs.FileDriveMam

import NeuralOs.Lib.Machine
import NeuralOs.NeuralFs.BlockDev
import NeuralOs.NeuralFs.Checksum

/-!
# Leaf pages

A leaf is a page with a count and an array of items, 17 bytes of key and 31 of value,
in the order of their keys. The page refines a map that takes at most 84 keys; it is
read back as it was written, and a split moves its upper half to another page.
-/

set_option autoImplicit false

namespace NeuralOs.NeuralFs.LeafPage
open ByteString ByteBlock Fallible BlockDev BlockWrites Checksum Machine

inductive ItemType
  | inode | dirEntry | fileExtent | freeExtent | checksum
  deriving DecidableEq

def ItemType.code : ItemType → UInt8
  | .inode => 1
  | .dirEntry => 2
  | .fileExtent => 3
  | .freeExtent => 4
  | .checksum => 5

/-- Every other byte is read as a checksum. -/
def ItemType.ofCode (b : UInt8) : ItemType :=
  if b = 1 then .inode else if b = 2 then .dirEntry else if b = 3 then .fileExtent
  else if b = 4 then .freeExtent else .checksum

structure Key where
  objectId : UInt64
  itemType : ItemType
  offset : UInt64
  deriving DecidableEq

def Key.toBytes (k : Key) : Bytes :=
  toLe 8 k.objectId.toNat ++ (k.itemType.code :: toLe 8 k.offset.toNat)

def Key.fromBytes (b : Bytes) : Key :=
  ⟨.ofNat (fromLe (slice b 0 8)), .ofCode (b.getD 8 0), .ofNat (fromLe (slice b 9 8))⟩

def Key.cmp : Key → Key → Ordering :=
  compareLex (compareOn (·.objectId)) (compareLex (compareOn (·.itemType.code))
    (compareOn (·.offset)))

abbrev LeafValue := Block 31

abbrev Item := Key × LeafValue

def leafItemSize : ℕ := 48

def maxLeafItems : ℕ := (4096-24)/leafItemSize

def itemOff (idx : ℕ) : ℕ := 24+idx*leafItemSize

/-! ### The operations on a page -/

def new (blockAddr : UInt64) : Page := (Block.zero 4096).putLe 8 8 blockAddr.toNat

def itemCount (p : Page) : ℕ := p.getLe 6 2

def getItem (p : Page) (idx : ℕ) : Option Bytes :=
  if itemCount p ≤ idx ∨ 4096 < itemOff idx+leafItemSize then none
  else some (p.get (itemOff idx) leafItemSize)

def getKeyValue (p : Page) (idx : ℕ) : Option Item :=
  (getItem p idx).map fun item => (Key.fromBytes item, (Block.zero 31).put 0 (slice item 17 31))

/-- The search from item `i` on with `n` items to go: the place of the key, or where it
belongs. -/
def findFrom (p : Page) (key : Key) : ℕ → ℕ → Except ℕ ℕ
  | i, 0 => .error i
  | i, n+1 =>
    match getItem p i with
    | none => .error i
    | some item =>
      match (Key.fromBytes item).cmp key with
      | .eq => .ok i
      | .gt => .error i
      | .lt => findFrom p key (i+1) n

def findKey (p : Page) (key : Key) : Except ℕ ℕ := findFrom p key 0 (itemCount p)

def moveItems (p : Page) (src dst n : ℕ) : Page :=
  p.put (itemOff dst) (p.get (itemOff src) (n*leafItemSize))

def insertAt (p : Page) (pos : ℕ) (key : Key) (value : LeafValue) : Page :=
  let count := itemCount p
  let p := if pos < count then moveItems p pos (pos+1) (count-pos) else p
  ((p.put (itemOff pos) key.toBytes).put (itemOff pos+17) value.bytes).putLe 6 2 (count+1)

def insert (p : Page) (key : Key) (value : LeafValue) : Bool × Page :=
  if maxLeafItems ≤ itemCount p then (false, p)
  else
    match findKey p key with
    | .ok _ => (false, p)
    | .error pos => (true, insertAt p pos key value)

def deleteAt (p : Page) (idx : ℕ) : Bool × Page :=
  let count := itemCount p
  if count ≤ idx then (false, p)
  else
    let p := if idx+1 < count then moveItems p (idx+1) idx (count-idx-1) else p
    (true, (p.put (itemOff (count-1)) (zeros leafItemSize)).putLe 6 2 (count-1))

def deleteKey (p : Page) (key : Key) : Bool × Page :=
  match findKey p key with
  | .ok i => deleteAt p i
  | .error _ => (false, p)

/-- The loop of `split_into` that copies `n` items from item `i` on. -/
def copyFrom (p : Page) : ℕ → ℕ → Page → Bool × Page
  | _, 0, right => (true, right)
  | i, n+1, right =>
    match getKeyValue p i with
    | none => (false, right)
    | some (k, v) => copyFrom p (i+1) n (insert right k v).2

/-- Its loop that deletes the last of `n` items from item `mid` on, again and again. -/
def cutFrom (mid : ℕ) : ℕ → Page → Page
  | 0, p => p
  | n+1, p => cutFrom mid n (deleteAt p (mid+n)).2

def splitInto (p right : Page) : Option Key × Page × Page :=
  let count := itemCount p
  let mid := count/2
  if count < 2 then (none, p, right)
  else
    match getKeyValue p mid with
    | none => (none, p, right)
    | some (sep, _) =>
      match copyFrom p mid (count-mid) (right.put 4 [0]) with
      | (false, right) => (none, p, right)
      | (true, right) => (some sep, cutFrom mid (count-mid) p, right)

def write (startLba : ℕ) (blockAddr : UInt64) (p : Page) : Act Disk Unit Unit :=
  writeWrapping (startLba+blockAddr.toNat*8) (writeChecksum (p.putLe 8 8 blockAddr.toNat))

/-- Its sums are checked: one that overflows is past the end of every device. -/
def read (d : Disk) (startLba : ℕ) (blockAddr : UInt64) : Option Page :=
  (readPage d (startLba+blockAddr.toNat*8)).filter verifyBlock

/-! ### Keys -/

instance : Std.TransCmp Key.cmp := inferInstanceAs (Std.TransCmp (compareLex _ _))

theorem eq_of_cmp {k l : Key} (h : k.cmp l = .eq) : k = l := by
  have hcode : ∀ a b : ItemType, a.code = b.code → a = b := by
    intro a b
    cases a <;> cases b <;> decide
  obtain ⟨o, i, x⟩ := k
  simp only [Key.cmp, compareLex, Ordering.then_eq_eq, compareOn] at h
  obtain ⟨ho, hi, hx⟩ := h
  rw [Std.LawfulEqCmp.eq_of_compare ho, Std.LawfulEqCmp.eq_of_compare hx,
    hcode _ _ (Std.LawfulEqCmp.eq_of_compare hi)]

theorem ne_of_lt {k l : Key} (h : k.cmp l = .lt) : k ≠ l := by
  rintro rfl
  simp [Std.ReflCmp.compare_self] at h

theorem toBytes_length (k : Key) : k.toBytes.length = 17 := by simp [Key.toBytes]

theorem fromBytes_toBytes (k : Key) (r : Bytes) : Key.fromBytes (k.toBytes ++ r) = k := by
  obtain ⟨o, i, x⟩ := k
  have hcode : ItemType.ofCode i.code = i := by cases i <;> rfl
  have hnum (u : UInt64) : UInt64.ofNat (fromLe (toLe 8 u.toNat)) = u := by
    rw [fromLe_toLe, Nat.mod_eq_of_lt (by simpa using u.toNat_lt), UInt64.ofNat_toNat]
  have hfirst := slice_at (o := 0) (n := 8) [] (toLe 8 o.toNat) (i.code :: (toLe 8 x.toNat ++ r))
    rfl (by simp)
  have hlast := slice_at (o := 9) (n := 8) (toLe 8 o.toNat ++ [i.code]) (toLe 8 x.toNat) r
    (by simp) (by simp)
  have hmid : (toLe 8 o.toNat ++ i.code :: (toLe 8 x.toNat ++ r)).getD 8 0 = i.code := by
    rw [List.getD_append_right _ _ _ _ (by simp), toLe_length]
    rfl
  simp only [List.append_assoc, List.cons_append, List.nil_append] at hfirst hlast
  simp only [Key.fromBytes, Key.toBytes, List.append_assoc, List.cons_append]
  rw [hfirst, hmid, hlast, hnum, hnum, hcode]

/-! ### Items in the page -/

def entry (p : Page) (i : ℕ) : Item :=
  (Key.fromBytes (p.get (itemOff i) leafItemSize),
    (Block.zero 31).put 0 (slice (p.get (itemOff i) leafItemSize) 17 31))

structure Holds (p : Page) (items : List Item) : Prop where
  count : itemCount p = items.length
  room : items.length ≤ 84
  item : ∀ i e, items[i]? = some e → entry p i = e

variable {p : Page} {items : List Item}

theorem itemOff_eq (i : ℕ) : itemOff i = 24+i*48 := rfl

theorem entry_congr {q : Page} {i j : ℕ}
    (h : p.get (itemOff i) leafItemSize = q.get (itemOff j) leafItemSize) :
    entry p i = entry q j := by
  rw [entry, entry, h]

theorem entry_put_ne {p : Page} {o : ℕ} {d : Bytes} {i : ℕ}
    (h : 24+48*(i+1) ≤ o ∨ o+d.length ≤ 24+48*i) : entry (p.put o d) i = entry p i :=
  entry_congr (get_put_ne (by rw [itemOff_eq, leafItemSize]; omega))

section move
variable {src dst n i : ℕ} (c : Prop) [Decidable c]

theorem entry_below (hi : i < dst) :
    entry (if c then moveItems p src dst n else p) i = entry p i := by
  split
  · exact entry_put_ne (.inl (by rw [itemOff_eq]; omega))
  · rfl

theorem entry_moved (hs : src+n ≤ 84) (hd : dst+n ≤ 84) (hi : i < n) (hc : c) :
    entry (if c then moveItems p src dst n else p) (dst+i) = entry p (src+i) := by
  have hoff (j : ℕ) : itemOff (j+i) = itemOff j+i*48 := by simp only [itemOff_eq]; omega
  have hdst := itemOff_eq dst
  have hl := get_length p (itemOff src) (n*48) (by rw [itemOff_eq]; omega)
  rw [if_pos hc]
  apply entry_congr
  rw [moveItems, leafItemSize, hoff, hoff, get_put_inside (by omega) (by omega)
    (by omega), Nat.add_sub_cancel_left]
  exact slice_slice _ _ _ _ _ (by omega)

end move

theorem entry_written (p : Page) (i : ℕ) (hi : i < 84) (key : Key) (value : LeafValue) :
    entry ((p.put (itemOff i) key.toBytes).put (itemOff i+17) value.bytes) i = (key, value) := by
  have hk := toBytes_length key
  have hv := value.size
  have hoff : itemOff i+48 ≤ 4096 := by rw [itemOff_eq]; omega
  have hkey := get_put_same p (itemOff i) key.toBytes (by omega)
  have hval := get_put_same (p.put (itemOff i) key.toBytes) (itemOff i+17) value.bytes (by omega)
  rw [hk, ← get_put_ne (o := itemOff i+17) (d := value.bytes) (.inl le_rfl)] at hkey
  rw [hv] at hval
  have hitem := slice_append_slice
    ((p.put (itemOff i) key.toBytes).put (itemOff i+17) value.bytes).bytes (itemOff i) 17 31
  rw [entry, leafItemSize, Block.get, ← hitem]
  rw [Block.get] at hkey hval
  rw [hkey, hval, fromBytes_toBytes]
  have hend := slice_at (o := 17) (n := 31) key.toBytes value.bytes [] hk.symm hv.symm
  rw [List.append_nil] at hend
  have hraw := get_put_same (Block.zero 31) 0 value.bytes (by omega)
  rw [hv, get_whole] at hraw
  rw [hend, Block.ext hraw]

theorem getItem_of_holds (h : Holds p items) (i : ℕ) :
    getItem p i = if i < items.length then some (p.get (itemOff i) leafItemSize) else none := by
  have hroom := h.room
  have hcount := h.count
  by_cases hi : i < items.length
  · rw [if_pos hi, getItem, if_neg (by rw [itemOff_eq, leafItemSize]; omega)]
  · rw [if_neg hi, getItem, if_pos (.inl (by omega))]

theorem getKeyValue_of_holds (h : Holds p items) (i : ℕ) : getKeyValue p i = items[i]? := by
  rw [getKeyValue, getItem_of_holds h]
  split
  · rename_i hi
    have he := List.getElem?_eq_getElem hi
    rw [he, ← h.item i _ he]
    rfl
  · rw [List.getElem?_eq_none (by omega)]
    rfl

theorem holds_new (addr : UInt64) : Holds (new addr) [] where
  count := by
    rw [itemCount, new, getLe_putLe_ne (by decide)]
    rfl
  room := Nat.zero_le _
  item := by simp

theorem holds_put (h : Holds p items) (o : ℕ) (d : Bytes)
    (ho : o+d.length ≤ 6 ∨ 8 ≤ o ∧ o+d.length ≤ 24) : Holds (p.put o d) items where
  count := (getLe_put_ne (by omega)).trans h.count
  room := h.room
  item i e he := (entry_put_ne (by omega)).trans (h.item i e he)

variable {a b m : List Item}

theorem insertAt_holds (h : Holds p (a ++ b)) (key : Key) (value : LeafValue)
    (hroom : (a ++ b).length < 84) :
    Holds (insertAt p a.length key value) (a ++ (key, value) :: b) := by
  have hcount := h.count
  have hk := toBytes_length key
  have hv := value.size
  have hoff := itemOff_eq a.length
  have hput {n : ℕ} : (toLe 2 n).length = 2 := toLe_length 2 n
  rw [List.length_append] at hroom hcount
  refine ⟨?_, by simp; omega, ?_⟩
  · rw [insertAt, itemCount, getLe_putLe_of_lt (by decide) (by omega)]
    simp only [List.length_append, List.length_cons]
    omega
  intro i e he
  rw [insertAt, Block.putLe, entry_put_ne (by rw [hput]; omega), hcount]
  -- Below the gap nothing moved; in it stands the new item; behind it all moved up by one.
  rcases lt_trichotomy i a.length with hi | rfl | hi
  · rw [entry_put_ne (by omega), entry_put_ne (by omega), entry_below _ (by omega)]
    exact h.item i e (by rwa [List.getElem?_append_left hi] at he ⊢)
  · rw [List.getElem?_append_right le_rfl, Nat.sub_self, List.getElem?_cons_zero,
      Option.some.injEq] at he
    rw [← he]
    exact entry_written _ _ (by omega) key value
  obtain ⟨j, rfl⟩ := Nat.exists_eq_add_of_lt hi
  rw [List.getElem?_append_right (by omega), show a.length+j+1-a.length = j+1 by omega,
    List.getElem?_cons_succ] at he
  have hj : j < b.length := (List.getElem?_eq_some_iff.mp he).1
  rw [entry_put_ne (by omega), entry_put_ne (by omega),
    show a.length+j+1 = a.length+1+j by omega,
    entry_moved _ (by omega) (by omega) (by omega) (by omega)]
  apply h.item
  rwa [List.getElem?_append_right (by omega), Nat.add_sub_cancel_left]

theorem deleteAt_holds {e : Item} (h : Holds p (a ++ e :: b)) :
    (deleteAt p a.length).1 = true ∧ Holds (deleteAt p a.length).2 (a ++ b) := by
  have hcount := h.count
  have hroom := h.room
  have hput {n : ℕ} : (toLe 2 n).length = 2 := toLe_length 2 n
  rw [List.length_append, List.length_cons] at hroom hcount
  rw [deleteAt, if_neg (by omega)]
  refine ⟨rfl, ?_, by simp; omega, ?_⟩
  · rw [itemCount, getLe_putLe_of_lt (by decide) (by omega), List.length_append]
    omega
  intro i x hx
  have hi : i < a.length+b.length := by
    simpa using (List.getElem?_eq_some_iff.mp hx).1
  simp only [Block.putLe]
  rw [entry_put_ne (by rw [hput]; omega),
    entry_put_ne (.inl (by rw [itemOff_eq]; omega)), hcount]
  rcases lt_or_ge i a.length with hl | hl
  · rw [entry_below _ hl]
    exact h.item i x (by rwa [List.getElem?_append_left hl] at hx ⊢)
  · obtain ⟨j, rfl⟩ := Nat.exists_eq_add_of_le hl
    rw [List.getElem?_append_right hl, Nat.add_sub_cancel_left] at hx
    rw [entry_moved _ (by omega) (by omega) (by omega) (by omega)]
    apply h.item
    rwa [List.getElem?_append_right (by omega), show a.length+1+j-a.length = j+1 by omega]

/-! ### The search -/

abbrev Sorted (items : List Item) : Prop := items.Pairwise fun a b => a.1.cmp b.1 = .lt

/-- The search stops between the smaller and the greater keys, at the key or where it
belongs. -/
def Found (key : Key) (items : List Item) (r : Except ℕ ℕ) : Prop :=
  ∃ a b, (∀ e ∈ a, e.1.cmp key = .lt) ∧ (∀ e ∈ b, key.cmp e.1 = .lt) ∧
    ((∃ v, items = a ++ (key, v) :: b ∧ r = .ok a.length) ∨
      items = a ++ b ∧ r = .error a.length)

theorem findFrom_found (key : Key) (h : Holds p (a ++ b))
    (hs : Sorted (a ++ b)) (ha : ∀ e ∈ a, e.1.cmp key = .lt) :
    Found key (a ++ b) (findFrom p key a.length b.length) := by
  -- `a` are the items passed so far, all below the key; the search goes on through `b`.
  induction b generalizing a with
  | nil => exact ⟨a, [], ha, by simp, .inr ⟨rfl, rfl⟩⟩
  | cons e b ih =>
    have hb := (List.pairwise_cons.mp (List.pairwise_append.mp hs).2.1).1
    have he : (entry p a.length).1 = e.1 := by rw [h.item a.length e (by simp)]
    rw [List.length_cons, findFrom, getItem_of_holds h, if_pos (by simp)]
    simp only [entry] at he ⊢
    rw [he]
    cases hc : e.1.cmp key with
    | eq =>
      rw [← eq_of_cmp hc] at ha ⊢
      exact ⟨a, b, ha, hb, .inl ⟨e.2, rfl, rfl⟩⟩
    | gt =>
      have hlt := Std.OrientedCmp.gt_iff_lt.mp hc
      refine ⟨a, e :: b, ha, List.forall_mem_cons.mpr ⟨hlt, fun x hx => ?_⟩, .inr ⟨rfl, rfl⟩⟩
      exact Std.TransCmp.lt_trans hlt (hb x hx)
    | lt =>
      have hnext := ih (a := a ++ [e]) (by simpa using h) (by simpa using hs)
        (List.forall_mem_append.mpr ⟨ha, by simpa using hc⟩)
      simpa using hnext

theorem findKey_found (key : Key) (h : Holds p items) (hs : Sorted items) :
    Found key items (findKey p key) := by
  rw [findKey, h.count]
  exact findFrom_found key (a := []) h hs (by simp)

theorem fst_ne {key : Key} (ha : ∀ e ∈ a, e.1.cmp key = .lt)
    (hb : ∀ e ∈ b, key.cmp e.1 = .lt) : ∀ e ∈ a ++ b, e.1 ≠ key :=
  List.forall_mem_append.mpr ⟨fun e he => ne_of_lt (ha e he), fun e he => (ne_of_lt (hb e he)).symm⟩

/-! ### The page as a map -/

inductive Op
  | insert (key : Key) (value : LeafValue)
  | delete (key : Key)

def apply (p : Page) : Op → Bool × Page
  | .insert key value => insert p key value
  | .delete key => deleteKey p key

def mapApply (m : List Item) : Op → Bool × List Item
  | .insert key value =>
    if 84 ≤ m.length ∨ ∃ e ∈ m, e.1 = key then (false, m) else (true, (key, value) :: m)
  | .delete key => (∃ e ∈ m, e.1 = key, m.filter (·.1 ≠ key))

def Refines (p : Page) (m : List Item) : Prop :=
  ∃ items, Holds p items ∧ Sorted items ∧ items.Perm m

theorem insert_refines (h : Refines p m) (key : Key) (value : LeafValue) :
    (insert p key value).1 = (mapApply m (.insert key value)).1 ∧
      Refines (insert p key value).2 (mapApply m (.insert key value)).2 := by
  obtain ⟨items, hp, hs, hm⟩ := h
  have hfull : maxLeafItems = 84 := rfl
  rw [insert, mapApply, hp.count, hfull, hm.length_eq]
  by_cases hroom : 84 ≤ m.length
  · rw [if_pos hroom, if_pos (.inl hroom)]
    exact ⟨rfl, items, hp, hs, hm⟩
  rw [if_neg hroom]
  obtain ⟨a, b, ha, hb, ⟨v, rfl, hr⟩ | ⟨rfl, hr⟩⟩ := findKey_found key hp hs
  · rw [hr, if_pos (.inr ⟨(key, v), hm.mem_iff.mp (by simp), rfl⟩)]
    exact ⟨rfl, _, hp, hs, hm⟩
  rw [hr, if_neg]
  · refine ⟨rfl, _, insertAt_holds hp key value (by rw [hm.length_eq]; omega), ?_, ?_⟩
    · obtain ⟨hsa, hsb, hab⟩ := List.pairwise_append.mp hs
      exact List.pairwise_append.mpr ⟨hsa, List.pairwise_cons.mpr ⟨hb, hsb⟩,
        fun x hx => List.forall_mem_cons.mpr ⟨ha x hx, hab x hx⟩⟩
    · exact List.perm_middle.trans (hm.cons _)
  · rintro (h | ⟨e, he, hk⟩)
    · exact hroom h
    · exact fst_ne ha hb e (hm.mem_iff.mpr he) hk

theorem deleteKey_refines (h : Refines p m) (key : Key) :
    (deleteKey p key).1 = (mapApply m (.delete key)).1 ∧
      Refines (deleteKey p key).2 (mapApply m (.delete key)).2 := by
  obtain ⟨items, hp, hs, hm⟩ := h
  have hfilter := hm.filter (·.1 ≠ key)
  rw [deleteKey, mapApply]
  obtain ⟨a, b, ha, hb, ⟨v, rfl, hr⟩ | ⟨rfl, hr⟩⟩ := findKey_found key hp hs
  all_goals have hne := fst_ne ha hb
  · have hd := deleteAt_holds hp
    have hin : ∃ e ∈ m, e.1 = key := ⟨(key, v), hm.mem_iff.mp (by simp), rfl⟩
    simp only [hr, hd.1, hin, decide_true, true_and]
    refine ⟨a ++ b, hd.2, hs.sublist (by simp), ?_⟩
    rw [List.filter_append, List.filter_cons_of_neg (by simp), ← List.filter_append,
      List.filter_eq_self.mpr (by simpa using hne)] at hfilter
    exact hfilter
  · have hout : ¬ ∃ e ∈ m, e.1 = key := fun ⟨e, he, hk⟩ => hne e (hm.mem_iff.mpr he) hk
    rw [List.filter_eq_self.mpr (by simpa using hne)] at hfilter
    simp only [hr, hout, decide_false, true_and]
    exact ⟨_, hp, hs, hfilter⟩

def pageAfter (addr : UInt64) (ops : List Op) : Page :=
  run (fun p op => (apply p op).2) (new addr) ops

def mapAfter (ops : List Op) : List Item := run (fun m op => (mapApply m op).2) [] ops

theorem apply_refines (h : Refines p m) (op : Op) :
    (apply p op).1 = (mapApply m op).1 ∧ Refines (apply p op).2 (mapApply m op).2 := by
  cases op with
  | insert key value => exact insert_refines h key value
  | delete key => exact deleteKey_refines h key

theorem pageAfter_refines (addr : UInt64) (ops : List Op) :
    Refines (pageAfter addr ops) (mapAfter ops) := by
  have hrun (p : Page) (m : List Item) (h : Refines p m) : Refines
      (run (fun p op => (apply p op).2) p ops) (run (fun m op => (mapApply m op).2) m ops) := by
    induction ops generalizing p m with
    | nil => exact h
    | cons op ops ih => exact ih _ _ (apply_refines h op).2
  exact hrun _ _ ⟨[], holds_new addr, List.Pairwise.nil, List.Perm.nil⟩

/-- After any inserts and deletes on a new leaf: its items are the pairs of the map, sorted,
a search finds the keys of the map and no others, and the next call is accepted exactly if
the map accepts it. -/
theorem leaf_refines_map (addr : UInt64) (ops : List Op) :
    (∃ items, Sorted items ∧ items.Perm (mapAfter ops) ∧
      ∀ i, getKeyValue (pageAfter addr ops) i = items[i]?) ∧
    (∀ key v, (key, v) ∈ mapAfter ops ↔ ∃ i, findKey (pageAfter addr ops) key = .ok i ∧
      getKeyValue (pageAfter addr ops) i = some (key, v)) ∧
    ∀ op, (apply (pageAfter addr ops) op).1 = (mapApply (mapAfter ops) op).1 := by
  have h := pageAfter_refines addr ops
  obtain ⟨items, hp, hs, hm⟩ := id h
  refine ⟨⟨items, hs, hm, getKeyValue_of_holds hp⟩, fun key v => ?_,
    fun op => (apply_refines h op).1⟩
  simp only [getKeyValue_of_holds hp, ← hm.mem_iff]
  obtain ⟨a, b, ha, hb, ⟨w, rfl, hr⟩ | ⟨rfl, hr⟩⟩ := findKey_found key hp hs
  · have hout : (key, v) ∉ a ++ b := fun hv => fst_ne ha hb _ hv rfl
    rw [List.mem_append, not_or] at hout
    simp [hr, hout, eq_comm]
  · have hout : (key, v) ∉ a ++ b := fun hv => fst_ne ha hb _ hv rfl
    simp only [hr, hout, reduceCtorEq, false_and, exists_const]

/-- On any device, a leaf whose write is reported as done is read back with its items, if
its addresses do not overflow; a leaf written to wrapped addresses is not read back. -/
theorem write_read (d : Disk) (startLba : ℕ) (blockAddr addr : UInt64) (ops : List Op) :
    ((write startLba blockAddr (pageAfter addr ops)).run d).1 = .error () ∨
      if startLba+blockAddr.toNat*8+7 < 2^64 then
        ∃ p, read ((write startLba blockAddr (pageAfter addr ops)).run d).2 startLba blockAddr =
          some p ∧ ∀ i, getKeyValue p i = getKeyValue (pageAfter addr ops) i
      else
        read ((write startLba blockAddr (pageAfter addr ops)).run d).2 startLba blockAddr =
          none := by
  obtain ⟨items, hp, -, -⟩ := pageAfter_refines addr ops
  split
  · next hfit =>
    have hend := writePage_ends (startLba+blockAddr.toNat*8)
      (writeChecksum ((pageAfter addr ops).putLe 8 8 blockAddr.toNat)) d
    rw [← writeWrapping_of_lt _ hfit, ← write, Ends] at hend
    generalize (write startLba blockAddr (pageAfter addr ops)).run d = out at hend ⊢
    obtain ⟨_ | _, e⟩ := out
    · exact .inl rfl
    obtain ⟨rfl, hsize⟩ := hend
    have haddr := holds_put hp 8 (toLe 8 blockAddr.toNat) (by simp)
    have hsum (n : ℕ) := holds_put haddr 0 (toLe 4 n) (by simp)
    refine .inr ⟨writeChecksum ((pageAfter addr ops).putLe 8 8 blockAddr.toNat), ?_, fun i =>
      (getKeyValue_of_holds (hsum _) i).trans (getKeyValue_of_holds hp i).symm⟩
    rw [read, readPage_some _ (by simpa using hsize), pageAt_putPage, Option.filter_some,
      if_pos (verify_writeChecksum _)]
  · next hwrap =>
    right
    rw [read, readPage_none _ _ (by omega)]
    rfl

/-! ### Splitting a leaf -/

theorem insert_last {e : Item} (h : Holds p items) (hs : Sorted (items ++ [e]))
    (hroom : items.length < 84) : Holds (insert p e.1 e.2).2 (items ++ [e]) := by
  obtain ⟨hs', -, hlt⟩ := List.pairwise_append.mp hs
  have hbelow : ∀ x ∈ items, x.1.cmp e.1 = .lt := fun x hx => hlt x hx e (by simp)
  have hfull : maxLeafItems = 84 := rfl
  rw [insert, h.count, hfull, if_neg (by omega)]
  obtain ⟨a, b, ha, hb, ⟨v, rfl, hr⟩ | ⟨rfl, hr⟩⟩ := findKey_found e.1 h hs'
  · exact absurd rfl (ne_of_lt (hbelow (e.1, v) (by simp)))
  cases b with
  | nil =>
    rw [hr]
    simpa using insertAt_holds h e.1 e.2 hroom
  | cons x b =>
    have hx := Std.TransCmp.lt_trans (hb x (by simp)) (hbelow x (by simp))
    exact absurd rfl (ne_of_lt hx)

theorem copyFrom_holds {q : Page} {a rest : List Item} (hq : Holds q (a ++ rest))
    (hp : Holds p items) (hs : Sorted (items ++ rest)) (hroom : items.length+rest.length ≤ 84) :
    ∃ r, copyFrom q a.length rest.length p = (true, r) ∧ Holds r (items ++ rest) := by
  induction rest generalizing a items p with
  | nil => exact ⟨p, rfl, by simpa using hp⟩
  | cons e rest ih =>
    rw [List.length_cons] at hroom
    -- The next key is above those already copied, so the insert appends it.
    have hlast := insert_last (e := e) hp (hs.sublist (by simp)) (by omega)
    obtain ⟨r, hr, hh⟩ := ih (a := a ++ [e]) (by simpa using hq) hlast (by simpa using hs)
      (by simp; omega)
    refine ⟨r, ?_, by simpa using hh⟩
    rw [List.length_cons, copyFrom, getKeyValue_of_holds hq]
    simpa using hr

theorem cutFrom_holds (h : Holds p (a ++ b)) : Holds (cutFrom a.length b.length p) a := by
  -- Every round deletes the item that is the last one then.
  induction b using List.reverseRecOn generalizing p with
  | nil => simpa [cutFrom] using h
  | append_singleton b e ih =>
    rw [← List.append_assoc] at h
    have hd := (deleteAt_holds h).2
    rw [List.append_nil, List.length_append] at hd
    simpa [cutFrom] using ih hd

/-- A leaf with two items or more is cut in the middle: the upper half, and nothing else, goes
to the new leaf, and the key handed up is the first of it. -/
theorem split_halves (addr addr' : UInt64) (ops : List Op) (h : 2 ≤ (mapAfter ops).length) :
    ∃ sep left right, splitInto (pageAfter addr ops) (new addr') = (some sep, left, right) ∧
      (getKeyValue right 0).map Prod.fst = some sep ∧
      (∀ i, getKeyValue right i =
        getKeyValue (pageAfter addr ops) ((mapAfter ops).length/2+i)) ∧
      ∀ i, getKeyValue left i = if i < (mapAfter ops).length/2 then
        getKeyValue (pageAfter addr ops) i else none := by
  obtain ⟨items, hp, hs, hm⟩ := pageAfter_refines addr ops
  have hget := getKeyValue_of_holds hp
  have hroom := hp.room
  rw [← hm.length_eq] at h ⊢
  generalize hmid : items.length/2 = mid
  obtain ⟨a, b, rfl, ha⟩ : ∃ a b, items = a ++ b ∧ a.length = mid :=
    ⟨_, _, (List.take_append_drop mid items).symm, by simp; omega⟩
  rw [List.length_append] at h hroom hmid
  obtain ⟨e, b, rfl⟩ := List.exists_cons_of_length_pos (show 0 < b.length by omega)
  have hlevel := holds_put (holds_new addr') 4 [0] (by decide)
  obtain ⟨r, hr, hright⟩ := copyFrom_holds hp hlevel (List.pairwise_append.mp hs).2.1
    (by rw [List.length_nil]; omega)
  rw [List.nil_append] at hright
  have hr' := getKeyValue_of_holds hright
  have hl' := getKeyValue_of_holds (cutFrom_holds hp)
  have hrest : a.length+(e :: b).length-a.length = (e :: b).length := by omega
  subst ha
  refine ⟨e.1, cutFrom a.length (e :: b).length (pageAfter addr ops), r, ?_, by simp [hr'],
    fun i => ?_, fun i => ?_⟩
  · simp only [splitInto, hp.count, List.length_append, hmid, hrest, hget, hr]
    rw [if_neg (by omega), List.getElem?_append_right le_rfl, Nat.sub_self]
    rfl
  · rw [hr', hget, List.getElem?_append_right (by omega), Nat.add_sub_cancel_left]
  · rw [hl', hget]
    split
    · rw [List.getElem?_append_left ‹_›]
    · rw [List.getElem?_eq_none (by omega)]

def twoInodes : List Op := [.insert ⟨2, .inode, 0⟩ (.zero 31), .insert ⟨1, .inode, 0⟩ (.zero 31)]

theorem split_halves_twoInodes : (mapAfter twoInodes).length = 2 ∧ ∃ sep left right,
    splitInto (pageAfter 5 twoInodes) (new 6) = (some sep, left, right) ∧
      ∀ i, getKeyValue right i = getKeyValue (pageAfter 5 twoInodes) (1+i) := by
  have hlen : (mapAfter twoInodes).length = 2 := by decide
  obtain ⟨sep, left, right, h, -, hright, -⟩ := split_halves 5 6 twoInodes (by decide)
  rw [hlen] at hright
  exact ⟨hlen, sep, left, right, h, hright⟩

end NeuralOs.NeuralFs.LeafPage

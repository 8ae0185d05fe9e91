import EmbedTemplate.Logging.Flash
import EmbedTemplate.Logging.Access

/-! # Records of the log ring

A record is the header, the payload and the padding of one message. The stores of
`log_dispatch` lay a sealed record at the reserved position whatever the write
buffer held before, and the reader's loads recover the fields from a laid-out
record, except for the first payload word of a record that straddles the end.
-/
namespace EmbedTemplate.Logging
open Circular Bytes
variable {n : BufSize}

def LogArgs.len (m : LogArgs) : ℕ := min m.text.length maxDataSize

/-- Whether `log_dispatch` goes on with the message. -/
def LogArgs.Accepted (m : LogArgs) : Prop := 0 < m.text.length ∧ m.text.length < 2 ^ 31

instance (m : LogArgs) : Decidable m.Accepted := inferInstanceAs (Decidable (_ ∧ _))

theorem LogArgs.len?_eq (m : LogArgs) : m.len? = if m.Accepted then some m.len else none := by
  by_cases hb : m.text.length < 2 ^ 31
  · have hret : (vsnprintf maxDataSize m.stack m.text).1 = m.text.length := if_pos hb
    rw [LogArgs.len?,hret,clampLen]
    by_cases h0 : 0 < m.text.length
    · rw [if_neg (by omega),if_pos (show m.Accepted from ⟨h0,hb⟩),LogArgs.len]
      congr 1
      omega
    · rw [if_pos (by omega),if_neg (show ¬m.Accepted from fun h => h0 h.1)]
  · have hret : (vsnprintf maxDataSize m.stack m.text).1 = -1 := if_neg hb
    rw [LogArgs.len?,hret,clampLen,if_pos (by norm_num),if_neg (show ¬m.Accepted from fun h => hb h.2)]

theorem LogArgs.len_le (m : LogArgs) : m.len ≤ 255 := Nat.min_le_right _ _

/-- The payload bytes that a record of the message carries. -/
def LogArgs.payload (m : LogArgs) : List UInt8 := get m.buf 0 m.len

@[simp] theorem LogArgs.payload_length (m : LogArgs) : m.payload.length = m.len := get_length _ _ _

/-- The header of the message's record while it carries a given tag. -/
def LogArgs.taggedHdr (m : LogArgs) (tag : UInt8) : LogHdr := { m.hdr m.len with tag := tag }

/-- A record with a given tag. -/
def LogArgs.record (m : LogArgs) (tag : UInt8) : List UInt8 :=
  (m.taggedHdr tag).toBytes ++ (m.payload ++ List.replicate (padLen m.len) 0)

def LogArgs.sealed (m : LogArgs) : List UInt8 := m.record logTagSeal

/-- The reserved size. -/
def LogArgs.size (m : LogArgs) : ℕ := totSize m.len

@[simp] theorem LogHdr.toBytes_length (h : LogHdr) : h.toBytes.length = 12 := by
  simp [LogHdr.toBytes]

theorem totSize_eq {len : ℕ} (h : len ≤ 255) : totSize len = (len + 19) / 8 * 8 := by
  rw [totSize,alignUp_eight,hdrSize,u32_of_lt (by omega)]
  congr 2
  omega

theorem LogArgs.size_eq (m : LogArgs) : m.size = (m.len + 19) / 8 * 8 := totSize_eq m.len_le
theorem LogArgs.size_mod (m : LogArgs) : m.size % 8 = 0 := by rw [m.size_eq]; omega
theorem LogArgs.le_size (m : LogArgs) : 12 + m.len ≤ m.size := by rw [m.size_eq]; omega
theorem LogArgs.sixteen_le_size (m : LogArgs) : 16 ≤ m.size := by rw [m.size_eq]; omega
theorem LogArgs.size_le (m : LogArgs) : m.size ≤ 272 := by
  have := m.len_le
  rw [m.size_eq]
  omega

theorem LogArgs.pad_eq (m : LogArgs) : padLen m.len = m.size - (12 + m.len) := rfl

theorem LogArgs.pad_lt (m : LogArgs) : padLen m.len < 8 := by
  rw [m.pad_eq,m.size_eq]
  omega

@[simp] theorem LogArgs.record_length (m : LogArgs) (tag : UInt8) : (m.record tag).length = m.size := by
  have := m.le_size
  simp only [LogArgs.record,List.length_append,LogHdr.toBytes_length,m.payload_length,
    List.length_replicate,m.pad_eq]
  omega

@[simp] theorem LogArgs.sealed_length (m : LogArgs) : m.sealed.length = m.size := m.record_length _

theorem storeHdr_eq (data : ℕ → UInt8) (p : ℕ) (h : LogHdr) :
    storeHdr n data p h = store n.val data p h.toBytes := by
  have hn := n.le_val
  simp only [storeHdr]
  split
  · rename_i hfit
    have h8 : (h.toBytes.take 8).length = 8 := by simp
    rw [← List.take_append_drop 8 h.toBytes,← put_eq_store n.val data p,put_append,h8,index_eq]
    · simp
    · rw [List.take_append_drop,h.toBytes_length,← index_eq]
      simp only [hdrSize] at hfit
      omega
  · exact copyToRing_eq data p _ (by rw [h.toBytes_length]; omega)

/-- The payload stores: stale buffer bytes behind a short text end up as padding. -/
theorem storePayload_eq (data : ℕ → UInt8) {p : ℕ} (hp : p % 8 = 0) (m : LogArgs) :
    storePayload n data p m.len m.buf =
      store n.val data (p + 12) (m.payload ++ List.replicate (padLen m.len) 0) := by
  have hn := n.le_val
  have hsz := m.size_le
  have hle := m.le_size
  have hpad := m.pad_lt
  have hmod := m.size_mod
  have hpe := m.pad_eq
  have hfirst : (if index n p ≤ n.val - totSize m.len then put data (index n p + hdrSize) (get m.buf 0 4)
      else if index n p ≤ n.val - (hdrSize + 4) then put data (index n p + hdrSize) (get m.buf 0 4)
      else copyToRing n data (p + hdrSize) (get m.buf 0 4)) =
      store n.val data (p + 12) (get m.buf 0 4) := by
    have hlin : index n p + 16 ≤ n.val →
        put data (index n p + hdrSize) (get m.buf 0 4) = store n.val data (p + 12) (get m.buf 0 4) := by
      intro hfit
      have hi : (p + 12) % n.val = index n p + 12 := by
        rw [index_eq] at hfit ⊢
        rw [Nat.add_mod,Nat.mod_eq_of_lt (by omega : 12 < n.val),Nat.mod_eq_of_lt (by omega)]
      rw [← put_eq_store n.val data (p + 12) _ (by rw [hi,get_length]; omega),hi,hdrSize]
    have h16 := m.sixteen_le_size
    split
    · rename_i hfit
      exact hlin (by change _ ≤ _ - m.size at hfit; omega)
    · split
      · rename_i hfit
        exact hlin (by simp only [hdrSize] at hfit; omega)
      · exact copyToRing_eq data (p + 12) _ (by rw [get_length]; omega)
  simp only [storePayload,hfirst]
  rw [alignedZeroPadding_eq _ _ hpad (by simp only [hdrSize]; omega)]
  by_cases h4 : 4 < m.len
  · rw [if_pos h4,copyToRing_eq _ _ _ (by rw [get_length]; omega)]
    have hs : m.payload = get m.buf 0 4 ++ get m.buf 4 (m.len - 4) := by
      rw [LogArgs.payload,← Nat.zero_add 4,← get_add,Nat.zero_add]
      congr 1
      omega
    rw [hs,store_append,store_append,List.length_append,get_length,get_length,hdrSize]
    congr 1
    omega
  · rw [if_neg h4]
    have hs : get m.buf 0 4 = m.payload ++ get m.buf m.len (4 - m.len) := by
      have ha := get_add m.buf 0 m.len (4 - m.len)
      rw [Nat.zero_add] at ha
      rw [LogArgs.payload,← ha]
      congr 1
      omega
    have hlen := m.payload_length
    rw [hs,hdrSize,← hlen,store_over]
    · rw [get_length,List.length_replicate,hlen,hpe,m.size_eq]
      omega
    · rw [List.length_replicate,hlen]
      omega

/-- The stores of a call together lay its sealed record at the reserved position. -/
theorem fill_data (r : LogRing n) {p : ℕ} (hp : p % 8 = 0) (m : LogArgs) :
    (r.fill p m.len m).data = store n.val r.data p m.sealed := by
  have hn := n.le_val
  have hsz := m.size_le
  have hrec := m.record_length logTagFree
  have hfree : storePayload n (storeHdr n r.data p (m.hdr m.len)) p m.len m.buf =
      store n.val r.data p (m.record logTagFree) := by
    rw [storeHdr_eq,storePayload_eq _ hp,LogArgs.record,store_append n.val r.data,LogHdr.toBytes_length]
    rfl
  simp only [LogRing.fill,storeSeal,hfree]
  rw [index_eq,put_eq_store n.val _ p [logTagSeal] (by
    have := Nat.mod_lt p (by omega : 0 < n.val)
    simp; omega)]
  have hcons : ∀ tag, m.record tag = tag :: (m.record logTagFree).tail := fun _ => rfl
  rw [hcons logTagFree,store_head,LogArgs.sealed,hcons logTagSeal]
  rw [List.length_tail]
  omega

theorem LogHdr.ofBytes_toBytes {h : LogHdr} (hh : h.tsHigh < 2 ^ 16) (hl : h.tsLow < 2 ^ 32) :
    LogHdr.ofBytes h.toBytes = h := by
  have h2 : (leBytes 2 h.tsHigh ++ leBytes 4 h.tsLow).take 2 = leBytes 2 h.tsHigh :=
    List.take_left' (leBytes_length 2 _)
  have h4 : ((leBytes 2 h.tsHigh ++ leBytes 4 h.tsLow).drop 2).take 4 = leBytes 4 h.tsLow := by
    rw [List.drop_left' (leBytes_length 2 _),List.take_of_length_le (leBytes_length 4 _).le]
  rcases h with ⟨tag,lvl,dom,ent,len,pad,hi,lo⟩
  simp only [LogHdr.ofBytes,LogHdr.toBytes,List.cons_append,List.nil_append,List.getD_cons_zero,
    List.getD_cons_succ,List.drop_succ_cons,List.drop_zero,LogHdr.mk.injEq,true_and] at h2 h4 ⊢
  rw [h2,h4,leNat_leBytes,leNat_leBytes]
  exact ⟨Nat.mod_eq_of_lt hh,Nat.mod_eq_of_lt hl⟩

theorem LogArgs.ofBytes_taggedHdr (m : LogArgs) (tag : UInt8) :
    LogHdr.ofBytes (m.taggedHdr tag).toBytes = m.taggedHdr tag :=
  LogHdr.ofBytes_toBytes (Nat.mod_lt _ (by norm_num)) (Nat.mod_lt _ (by norm_num))

@[simp] theorem LogArgs.taggedHdr_len (m : LogArgs) (tag : UInt8) :
    (m.taggedHdr tag).len.toNat = m.len := by
  have := m.len_le
  change (UInt8.ofNat m.len).toNat = m.len
  rw [UInt8.toNat_ofNat']
  omega

@[simp] theorem LogArgs.taggedHdr_size (m : LogArgs) (tag : UInt8) :
    (m.taggedHdr tag).size = m.size := by
  have hp := m.pad_lt
  have hle := m.le_size
  have hpe := m.pad_eq
  have hpad : (m.taggedHdr tag).pad.toNat = padLen m.len := by
    change (UInt8.ofNat (padLen m.len)).toNat = _
    rw [UInt8.toNat_ofNat']
    omega
  rw [LogHdr.size,m.taggedHdr_len,hpad,hdrSize]
  omega

/-- A record of the message, with the given tag, lies at position `p`. -/
def RecordAt (n : BufSize) (data : ℕ → UInt8) (p : ℕ) (tag : UInt8) (m : LogArgs) : Prop :=
  Holds n.val data p (m.record tag)

theorem RecordAt.of_u32 {data : ℕ → UInt8} {p : ℕ} {tag : UInt8} {m : LogArgs}
    (h : RecordAt n data p tag m) : RecordAt n data (u32 p) tag m := Holds.shift h (u32_modEq n p)

section Loads
variable {data : ℕ → UInt8} {p : ℕ} {m : LogArgs} {tag : UInt8}

theorem RecordAt.tag_eq (h : RecordAt n data p tag m) : data (index n p) = tag := by
  rw [index_eq]
  exact Holds.head h

theorem RecordAt.hdr_bytes (h : RecordAt n data p tag m) :
    Holds n.val data p (m.taggedHdr tag).toBytes := (holds_append.mp h).1

theorem RecordAt.payload_bytes (h : RecordAt n data p tag m) :
    Holds n.val data (p + 12) (m.payload ++ List.replicate (padLen m.len) 0) := by
  have := (holds_append.mp h).2
  rwa [LogHdr.toBytes_length] at this

theorem RecordAt.copy_hdr (h : RecordAt n data p tag m) :
    LogHdr.ofBytes (copyFromRing n data p hdrSize) = m.taggedHdr tag := by
  have hn := n.le_val
  have hlen := (m.taggedHdr tag).toBytes_length
  have hg := copyFromRing_eq h.hdr_bytes (by rw [hlen]; omega)
  rw [hlen] at hg
  rw [hdrSize,hg,m.ofBytes_taggedHdr]

theorem RecordAt.get_hdr (h : RecordAt n data p tag m) (hfit : index n p ≤ n.val - hdrSize) :
    LogHdr.ofBytes (get data (index n p) hdrSize) = m.taggedHdr tag := by
  have hn := n.le_val
  have hlen := (m.taggedHdr tag).toBytes_length
  rw [index_eq] at hfit ⊢
  simp only [hdrSize] at hfit ⊢
  have hg := h.hdr_bytes.get_linear (by rw [hlen]; omega)
  rw [hlen] at hg
  rw [hg,m.ofBytes_taggedHdr]

theorem RecordAt.loadHdr_eq (h : RecordAt n data p tag m) : loadHdr n data p = m.taggedHdr tag := by
  simp only [loadHdr]
  split
  · rename_i hfit
    rw [← get_add]
    exact h.get_hdr hfit
  · exact h.copy_hdr

theorem RecordAt.oldHdr_eq (h : RecordAt n data p tag m) : oldHdr n data p = m.taggedHdr tag := by
  rw [oldHdr]
  split
  · rename_i hfit
    exact h.get_hdr hfit
  · exact h.copy_hdr

theorem RecordAt.loadRest_eq (h : RecordAt n data p tag m) :
    loadRest n data p m.len = m.payload.drop 4 := by
  have hn := n.le_val
  have hle := m.len_le
  rw [loadRest]
  split
  · rename_i h4
    have hp := (holds_append.mp h.payload_bytes).1
    rw [← List.take_append_drop 4 m.payload] at hp
    have hr := (holds_append.mp hp).2
    rw [List.length_take,m.payload_length,Nat.min_eq_left (by omega)] at hr
    have hg := copyFromRing_eq hr (by rw [List.length_drop,m.payload_length]; omega)
    rwa [List.length_drop,m.payload_length] at hg
  · rename_i h4
    rw [List.drop_eq_nil_of_le (by rw [m.payload_length]; omega)]

/-- The first word of the payload, where the header does not straddle the end. -/
theorem RecordAt.loadFirst_eq (h : RecordAt n data p tag m) (hp : p % 8 = 0)
    (hne : p % n.val ≠ n.val - 8) :
    loadFirst n data p = (m.payload ++ List.replicate (padLen m.len) 0).take 4 := by
  have hn := n.le_val
  have h16 := m.sixteen_le_size
  have hlt := index_lt n p
  have hi8 := index_mod_eight n p
  have hfit : index n p + 16 ≤ n.val := by
    obtain ⟨k,hk⟩ := n.eight_dvd
    rw [← index_eq] at hne
    omega
  have hb := h.payload_bytes
  rw [← List.take_append_drop 4 (m.payload ++ _)] at hb
  have h4 := (holds_append.mp hb).1
  have hlen : ((m.payload ++ List.replicate (padLen m.len) 0).take 4).length = 4 := by
    have hpe := m.pad_eq
    have hle := m.le_size
    rw [List.length_take,List.length_append,m.payload_length,List.length_replicate]
    omega
  have hmod : (p + 12) % n.val = index n p + 12 := by
    rw [index_eq] at hfit ⊢
    rw [Nat.add_mod,Nat.mod_eq_of_lt (by omega : 12 < n.val),Nat.mod_eq_of_lt (by omega)]
  have hg := h4.get_linear (by rw [hmod,hlen]; omega)
  rwa [hmod,hlen] at hg

/-- Where the header straddles the end, the word behind the guard is read instead. -/
theorem loadFirst_straddle (data : ℕ → UInt8) (hp : p % n.val = n.val - 8) :
    loadFirst n data p = get data (n.val + 4) 4 := by
  have hn := n.le_val
  rw [loadFirst,index_eq,hp,hdrSize]
  congr 1
  omega

end Loads

/-- The callback invocation that delivers the message intact. -/
def LogArgs.line (m : LogArgs) : LogLine where
  domain := m.domain
  entity := m.entity
  level := m.level
  ts := m.ts.val
  msg := m.payload ++ [0]
  len := m.len

/-- The payload that the reader recovers from a record at `p`, when `guard` is the word
that lies four bytes behind the ring. -/
def LogArgs.payloadAt (m : LogArgs) (n : BufSize) (guard : List UInt8) (p : ℕ) : List UInt8 :=
  if p % n.val = n.val - 8 then (guard ++ m.payload.drop 4).take m.len else m.payload

/-- The callback invocation that the reader makes for a record at `p`. -/
def LogArgs.lineAt (m : LogArgs) (n : BufSize) (guard : List UInt8) (p : ℕ) : LogLine :=
  { m.line with msg := m.payloadAt n guard p ++ [0] }

theorem LogArgs.taggedHdr_line (m : LogArgs) (tag : UInt8) (payload : List UInt8) :
    (m.taggedHdr tag).line payload = { m.line with msg := payload.take m.len ++ [0] } := by
  have hts : u16 (m.ts.val / 2 ^ 32) * 2 ^ 32 + u32 m.ts.val = m.ts.val := by
    have := m.ts.isLt
    rw [u16,u32,Nat.mod_eq_of_lt (by omega)]
    omega
  simp only [LogHdr.line,LogArgs.line,m.taggedHdr_len,LogLine.mk.injEq,and_true]
  exact ⟨rfl,rfl,rfl,hts⟩

/-- Fetching a string's first word with its padding and its rest recovers the string. -/
private theorem take_patched (xs zs : List UInt8) :
    ((xs ++ zs).take 4 ++ xs.drop 4).take xs.length = xs := by
  rcases Nat.le_total 4 xs.length with h | h
  · rw [List.take_append_of_le_length h,List.take_append_drop,List.take_length]
  · rw [List.drop_eq_nil_of_le h,List.append_nil,List.take_take,Nat.min_eq_left h,
      List.take_append_of_le_length le_rfl,List.take_length]

private theorem take_patch_eq_iff {guard xs : List UInt8} (hg : guard.length = 4) :
    (guard ++ xs.drop 4).take xs.length = xs ↔ guard.take xs.length = xs.take 4 := by
  rcases Nat.le_total 4 xs.length with h | h
  · rw [List.take_of_length_le (by rw [List.length_append,List.length_drop]; omega),
      List.take_of_length_le (by omega : guard.length ≤ xs.length)]
    nth_rewrite 2 [← List.take_append_drop 4 xs]
    exact List.append_left_inj _
  · rw [List.drop_eq_nil_of_le h,List.append_nil,List.take_of_length_le h]

/-- What the reader passes to the callback for a laid-out record. -/
theorem RecordAt.line_eq {data : ℕ → UInt8} {p : ℕ} {m : LogArgs} {tag : UInt8}
    (h : RecordAt n data p tag m) (hp : p % 8 = 0) :
    (m.taggedHdr tag).line (loadFirst n data p ++ loadRest n data p m.len) =
      m.lineAt n (get data (n.val + 4) 4) p := by
  rw [m.taggedHdr_line,h.loadRest_eq,LogArgs.lineAt,LogArgs.payloadAt]
  split
  · rename_i hs
    rw [loadFirst_straddle data hs]
  · rename_i hs
    rw [h.loadFirst_eq hp hs]
    rw [← m.payload_length,take_patched]

/-- Delivery is intact exactly when the word behind the guard happens to agree. -/
theorem LogArgs.lineAt_eq_line {m : LogArgs} {guard : List UInt8} (hg : guard.length = 4) {p : ℕ} :
    m.lineAt n guard p = m.line ↔
      (p % n.val = n.val - 8 → guard.take m.len = m.payload.take 4) := by
  have hmsg : m.lineAt n guard p = m.line ↔ m.payloadAt n guard p = m.payload := by
    rw [LogArgs.lineAt,LogArgs.line,LogLine.mk.injEq]
    simp
  rw [hmsg,LogArgs.payloadAt]
  split
  · rename_i hs
    simp only [hs,forall_const]
    rw [← m.payload_length]
    exact take_patch_eq_iff hg
  · rename_i hs
    simp [hs]

end EmbedTemplate.Logging

import Dgos.L3Files.Fat32Insert

/-!
# Creating a file

The new entries are written over free ones, in place or in a new last cluster, and everything else
in the directory stays as it was. A name that is stored with long entries is then found at its short
entry. A name that is stored as a short entry alone is not: its characters were replaced by a
generated name.

Results:

* `createDirent_created` — what the directory is afterwards
* `create_resolves` — the new name is found, the others as before
* `created_not_found` — the cases in which it is not so
-/
namespace Dgos.L3.Fat32

open List Fat Except

/-! ## What is created -/

section Created

variable {v : Volume} {st st' : St} {de c n j x p alloc base : Nat} {new : FullLfn} {fat fat' : Nat → Nat}

theorem mem_entriesOf {chain : List Nat} :
    de ∈ entriesOf v chain ↔ ∃ c ∈ chain, ∃ k < perCluster v, de = place v c + 32 * k := by
  simp [entriesOf, mem_flatMap, mem_slots]

/-- The entries of other clusters are not affected by a write within a cluster. -/
theorem entry_apart {chain : List Nat} (hwalk : ∀ c' ∈ chain, Sits v c')
    (hc : Sits v c) (hnot : c ∉ chain) (hde : de ∈ entriesOf v chain) (hj : j < 32) :
    de + j < place v c ∨ place v c + v.blockSize ≤ de + j := by
  obtain ⟨c', hc', k, hk, rfl⟩ := mem_entriesOf.mp hde
  have hmul := perCluster_mul v
  have hne : c' ≠ c := fun heq => hnot (heq ▸ hc')
  rcases (hwalk c' hc').apart hc hne with hle | hle
  · exact .inl (by omega)
  · exact .inr (by omega)

/-- How a directory and the bytes of its entries change when a name is created. -/
structure Created (v : Volume) (st st' : St) (chain chain' : List Nat) (lfn : FullLfn) (dev : Buf)
    (pre post : List Nat) (ins : Nat) : Prop where
  walk : Walk v st'.fat chain'
  linked : Fat.Linked st'.fat chain'
  start : st'.dirent.start = chain'.headD 0
  entries : entriesOf v chain' = pre ++ (slots ins (lfn.lfnEntryCount + 1) ++ post)
  /-- The bytes before the new entries are written, the new cluster included. -/
  wellFormed : WellFormed dev (entriesOf v chain')
  same : ∀ de ∈ entriesOf v chain, ∀ j < 32, st.dev (de + j) = dev (de + j)
  grown : ∃ l, entriesOf v chain' = entriesOf v chain ++ l ∧ ∀ de ∈ l, isDirentFree dev de = true
  inserted : Inserted lfn dev st'.dev pre post ins
  used : isDirentFree st'.dev (ins + 32 * lfn.lfnEntryCount) = false

theorem Walk.fat_getLastD {l1 l2 : List Nat} (h : Walk v fat (l1 ++ c :: l2)) (hne : l1 ≠ []) :
    fat (l1.getLastD x) = c ∧ l1.getLastD x ∈ l1 := by
  induction l1 generalizing x with
  | nil => exact absurd rfl hne
  | cons d l1 ih =>
    cases l1 with
    | nil => exact ⟨h.2.1, mem_cons_self⟩
    | cons e l1 =>
      obtain ⟨hfat, hmem⟩ := ih (x := d) h.2.2 (cons_ne_nil e l1)
      exact ⟨hfat, mem_cons_of_mem d hmem⟩

theorem slots_split (p : Nat) {a per : Nat} (h : a + n ≤ per) :
    slots p per = slots p a ++ (slots (p + 32 * a) n ++ slots (p + 32 * (a + n)) (per - a - n)) := by
  obtain ⟨m, rfl⟩ : ∃ m, per = a + (n + m) := ⟨per - a - n, by omega⟩
  rw [slots_add, slots_add, show a + (n + m) - a - n = m by omega, mul_add, add_assoc]

/-- Changing other entries of the FAT does not affect the directory. -/
theorem chain_congr {chain : List Nat} (hw : Walk v fat chain) (hl : Linked fat chain)
    (hsame : ∀ c ∈ chain, fat' c = fat c) : Walk v fat' chain ∧ Linked fat' chain := by
  induction chain with
  | nil => exact ⟨hw, hl⟩
  | cons c l ih =>
    have hc := hsame c mem_cons_self
    cases l with
    | nil =>
      rw [Walk, Linked, hc]
      exact ⟨hw, hl⟩
    | cons d l =>
      obtain ⟨hw', hl'⟩ := ih hw.2.2 hl.2.2 fun c' hc' => hsame c' (mem_cons_of_mem c hc')
      rw [Walk, Linked, hc]
      exact ⟨⟨hw.1, hw.2.1, hw'⟩, hl.1, hl.2.1, hl'⟩

variable {chain l1 l2 l : List Nat} {c' a idx : Nat} {lfn : FullLfn} {now : Stamp} {writable : Bool}
  {s : InsertSt}

/-- The entries before the run and those behind it. -/
def before (v : Volume) (l1 : List Nat) (c a : Nat) : List Nat :=
  entriesOf v l1 ++ slots (place v c) a

def behind (v : Volume) (l2 : List Nat) (c a n : Nat) : List Nat :=
  slots (place v c + 32 * (a + n)) (perCluster v - a - n) ++ entriesOf v l2

theorem entriesOf_split (ha : a + n ≤ perCluster v) : entriesOf v (l1 ++ c' :: l2) =
      before v l1 c' a ++ (slots (place v c' + 32 * a) n ++ behind v l2 c' a n) := by
  rw [entriesOf_append, entriesOf_cons, slots_split (place v c') ha, before, behind]
  simp

/-- A write over the run leaves the other entries alone. -/
theorem outside_run (hsits : ∀ c ∈ l1 ++ c' :: l2, Sits v c)
    (hnodup : (l1 ++ c' :: l2).Nodup) (ha : a + n ≤ perCluster v) (hj : j < 32)
    (hde : de ∈ before v l1 c' a ∨ de ∈ behind v l2 c' a n) :
    de + j < place v c' + 32 * a ∨ place v c' + 32 * a + 32 * n ≤ de + j := by
  have hmul := perCluster_mul v
  have hc' := hsits c' (by simp)
  have hnot := (nodup_middle.mp hnodup)
  have hnot1 : c' ∉ l1 := fun h => (nodup_cons.mp hnot).1 (mem_append_left l2 h)
  have hnot2 : c' ∉ l2 := fun h => (nodup_cons.mp hnot).1 (mem_append_right l1 h)
  have hother : ∀ l, c' ∉ l → (∀ c ∈ l, Sits v c) → de ∈ entriesOf v l →
      de + j < place v c' + 32 * a ∨ place v c' + 32 * a + 32 * n ≤ de + j := by
    intro l hl hs hmem
    rcases entry_apart hs hc' hl hmem hj with hlt | hge
    · exact .inl (by omega)
    · exact .inr (by omega)
  rcases hde with hde | hde
  · rcases mem_append.mp hde with hmem | hmem
    · exact hother l1 hnot1 (fun c hc => hsits c (mem_append_left _ hc)) hmem
    · obtain ⟨i, hi, rfl⟩ := mem_slots.mp hmem
      exact .inl (by omega)
  · rcases mem_append.mp hde with hmem | hmem
    · obtain ⟨i, hi, rfl⟩ := mem_slots.mp hmem
      exact .inr (by omega)
    · exact hother l2 hnot2 (fun c hc => hsits c (by simp [hc])) hmem

/-- All entries of a name are written from `p` on. -/
def FullLfn.write (new : FullLfn) (dev : Buf) (p : Nat) : Buf :=
  poke dev p (peek new.fragments 0 (32 * (new.lfnEntryCount + 1)))

theorem FullLfn.write_inside {dev : Buf} (hx : x < 32 * (new.lfnEntryCount + 1)) :
    new.write dev p (p + x) = new.fragments x := by
  rw [write, poke_inside (by rw [peek_length]; exact hx), getD_peek _ _ hx, zero_add]

theorem writeTransacted_fat (hwalk : Walk v st.fat (l1 ++ c' :: l2))
    (hlinked : Linked st.fat (l1 ++ c' :: l2))
    (hstart : st.dirent.start = (l1 ++ c' :: l2).headD 0) (hres : s.resultCluster = c')
    (hprev : s.prevCluster = l1.getLastD 0) (h : writeTransacted v st new s = .ok st') :
    (∀ c ∈ l1 ++ c' :: l2, st'.fat c = st.fat c) ∧ st'.dirent.start = (l1 ++ c' :: l2).headD 0 ∧
      ∃ b ins, Sits v b ∧ b ∉ l1 ++ c' :: l2 ∧ s.insPoint = some ins ∧ ∃ dev,
        (∀ x, x < place v b ∨ place v b + v.blockSize ≤ x → dev x = st.dev x) ∧
          st'.dev = new.write dev ins := by
  obtain ⟨⟨b, st1⟩, htrans, h⟩ := bind_eq_ok h
  obtain ⟨st2, hcopy, h⟩ := bind_eq_ok h
  obtain ⟨st3, hlink, h⟩ := bind_eq_ok h
  split at h
  · cases h
  next hb =>
  obtain ⟨hfree, hsits, hdev, hfat, hfat0, hstart1⟩ := transactCluster_spec htrans hb
  obtain ⟨ins, hins, hfat2, hdirent2, hdev2⟩ := copyFragments_spec hcopy
  obtain ⟨hdev3, hfat3, hzero3, hprev3⟩ := relink_spec hlink
  obtain ⟨hdev4, hfat4, -, hdirent4⟩ := putFat_spec h
  have hnot : b ∉ l1 ++ c' :: l2 := by
    intro hmem
    rw [not_free_of_linked hlinked b hmem] at hfree
    cases hfree
  have hne : ∀ c ∈ l1 ++ c' :: l2, c ≠ b := fun c hc heq => hnot (heq ▸ hc)
  have hdata : st'.dev = new.write st1.dev ins := by
    rw [hdev4, hdev3, hdev2, FullLfn.write]
  rw [hprev] at hfat hfat0 hstart1 hfat3 hzero3 hprev3
  rw [hres] at hzero3 hprev3
  by_cases hnil : l1 = []
  · subst hnil
    obtain ⟨hfat₃', hstart3⟩ := hzero3 rfl
    refine ⟨fun c hc => ?_, ?_, b, ins, hsits, hnot, hins, st1.dev, hdev, hdata⟩
    · rw [hfat4 c (hne c hc), hfat₃', hfat2, hfat0 rfl c (hne c hc)]
    · rw [hdirent4, hstart3]
      rfl
  · obtain ⟨hlast, hmem⟩ := hwalk.fat_getLastD (x := 0) hnil
    have hge := (hwalk.lt _ (mem_append_left (c' :: l2) hmem)).ge
    have hpos : l1.getLastD 0 ≠ 0 := by omega
    obtain ⟨hfat₃', hstart3⟩ := hprev3 hpos
    refine ⟨fun c hc => ?_, ?_, b, ins, hsits, hnot, hins, st1.dev, hdev, hdata⟩
    · rw [hfat4 c (hne c hc)]
      by_cases heq : c = l1.getLastD 0
      · rw [heq, hfat₃', hlast]
      · rw [hfat3 c heq, hfat2, hfat c (hne c hc) heq]
    · rw [hdirent4, hstart3, hdirent2, hstart1 hpos, hstart]

theorem used_of_write (dev : Buf) :
    isDirentFree ((newEntries lfn now writable idx).write dev p) (p + 32 * lfn.lfnEntryCount) =
      false := by
  rw [← Bool.not_eq_true]
  intro hfree
  apply free_ne_printable hfree (newEntries_used lfn now writable idx)
  exact FullLfn.write_inside (show _ < 32 * (lfn.lfnEntryCount + 1) by omega)

theorem chain_snoc (hw : Walk v fat (c :: l)) (hl : Linked fat (c :: l))
    (hsame : ∀ c' ∈ c :: l, c' ≠ l.getLastD c → fat' c' = fat c') (hlast : fat' (l.getLastD c) = a)
    (hsits : Sits v a) (ha : IsCluster a) (hend : 0x0FFFFFF8 ≤ link (fat' a)) :
    Walk v fat' (c :: (l ++ [a])) ∧ Linked fat' (c :: (l ++ [a])) := by
  have hnodup := hl.nodup
  have hmod : link a = a := Nat.mod_eq_of_lt (by have := ha.2; omega)
  induction l generalizing c with
  | nil => exact ⟨⟨hw.1, hlast, hsits, isEof_of_ge hend⟩, hl.1,
      (congrArg link hlast).trans hmod, ha, hend⟩
  | cons d l ih =>
    rw [getLastD_cons] at hsame hlast
    have hc := hsame c mem_cons_self fun heq =>
      (nodup_cons.mp hnodup).1 (heq ▸ getLastD_mem_cons)
    obtain ⟨hw', hl'⟩ := ih hw.2.2 hl.2.2 (fun c' hc' => hsame c' (mem_cons_of_mem c hc')) hlast
      (nodup_cons.mp hnodup).2
    exact ⟨⟨hw.1, hc.trans hw.2.1, hw'⟩, hl.1, by rw [hc]; exact hl.2.1, hl'⟩

theorem writeExtended_fat (hsits : ∀ c' ∈ c :: l, Sits v c')
    (hnot : alloc ∉ c :: l) (hprev : s.prevCluster = l.getLastD c) (hres : s.resultCluster = alloc)
    (h : writeExtended v (taken v st alloc) new s alloc = .ok st') :
    (∀ c' ∈ c :: l, c' ≠ l.getLastD c → st'.fat c' = st.fat c') ∧ st'.fat (l.getLastD c) = alloc ∧
      st'.fat alloc = 0x0FFFFFF8 ∧ st'.dirent.start = st.dirent.start ∧
      ∃ ins, s.insPoint = some ins ∧ st'.dev = new.write (taken v st alloc).dev ins := by
  obtain ⟨st1, hcopy, h⟩ := bind_eq_ok h
  obtain ⟨entry, -, h⟩ := bind_eq_ok h
  split at h
  · obtain ⟨st2, hput, hlink⟩ := bind_eq_ok h
    obtain ⟨ins, hins, hfat1, hdirent1, hdev1⟩ := copyFragments_spec hcopy
    obtain ⟨hdev2, hfat2, hmark, hdirent2⟩ := putFat_spec hput
    rw [hprev, hres] at hlink
    obtain ⟨hdev3, hfat3, -, hprev3⟩ := relink_spec hlink
    have hmem : l.getLastD c ∈ c :: l := getLastD_mem_cons
    have hpos : l.getLastD c ≠ 0 := by
      have := (hsits _ hmem).ge
      omega
    have hne : alloc ≠ l.getLastD c := fun heq => hnot (heq ▸ hmem)
    obtain ⟨hlast, hstart⟩ := hprev3 hpos
    refine ⟨fun c' hc' hother => ?_, hlast, ?_, ?_, ins, hins, ?_⟩
    · have hne' : c' ≠ alloc := fun heq => hnot (heq ▸ hc')
      rw [hfat3 c' hother, hfat2 c' hne', hfat1]
      exact if_neg hne'
    · rw [hfat3 alloc hne, hmark]
    · rw [hstart, hdirent2, hdirent1]
      rfl
    · rw [hdev3, hdev2, hdev1, FullLfn.write]
  · cases h

section Inserted

variable (ha : a + (lfn.lfnEntryCount + 1) ≤ perCluster v)
  (hattr : ∀ i < lfn.lfnEntryCount, lfn.fragments (32 * i + 11) = 0x0F)
include ha hattr

variable (now writable idx) in
/-- The run of free entries is overwritten. -/
theorem inserted_of_write (hsits : ∀ c ∈ l1 ++ c' :: l2, Sits v c)
    (hnodup : (l1 ++ c' :: l2).Nodup) {dev dev1 : Buf}
    (hwf : WellFormed dev (entriesOf v (l1 ++ c' :: l2)))
    (hfree : ∀ k < lfn.lfnEntryCount + 1, isDirentFree dev (place v c' + 32 * (a + k)) = true)
    (hsame : ∀ de ∈ entriesOf v (l1 ++ c' :: l2), ∀ j < 32, dev (de + j) = dev1 (de + j)) :
    Inserted lfn dev ((newEntries lfn now writable idx).write dev1 (place v c' + 32 * a))
      (before v l1 c' a) (behind v l2 c' a (lfn.lfnEntryCount + 1)) (place v c' + 32 * a) := by
  rw [entriesOf_split ha] at hwf hsame
  have hmem : ∀ de ∈ slots (place v c' + 32 * a) (lfn.lfnEntryCount + 1),
      isDirentFree dev de = true := by
    intro de hde
    obtain ⟨k, hk, rfl⟩ := mem_slots.mp hde
    have := hfree k hk
    rwa [mul_add, ← add_assoc] at this
  have hother : ∀ de, de ∈ before v l1 c' a ∨ de ∈ behind v l2 c' a (lfn.lfnEntryCount + 1) →
      de ∈ before v l1 c' a ++ (slots (place v c' + 32 * a) (lfn.lfnEntryCount + 1) ++
        behind v l2 c' a (lfn.lfnEntryCount + 1)) → ∀ j < 32, dev (de + j) =
          (newEntries lfn now writable idx).write dev1 (place v c' + 32 * a) (de + j) := by
    intro de hde hde' j hj
    rw [FullLfn.write, poke_outside (by rw [peek_length]; exact outside_run hsits hnodup ha hj hde)]
    exact hsame de hde' j hj
  refine ⟨?_, hmem, ?_, fun de hde => hother de (.inl hde) (by simp [hde]),
    fun de hde => hother de (.inr hde) (by simp [hde])⟩
  · have hfirst : (slots (place v c' + 32 * a) (lfn.lfnEntryCount + 1) ++
        behind v l2 c' a (lfn.lfnEntryCount + 1)).head? = some (place v c' + 32 * a) := by
      rw [slots_cons]
      rfl
    intro x hx hlong
    have hnext := (isChain_append.mp hwf.next).2.2 x hx _ hfirst hlong
    rw [hmem _ (by rw [slots_cons]; exact mem_cons_self)] at hnext
    cases hnext
  · exact newEntries_stored hattr fun x hx => FullLfn.write_inside hx

theorem created_inside (d : Directory v st) (hchain : d.chain = l1 ++ c' :: l2)
    (hwalk : Walk v st.fat d.chain)
    (hplace : Place st.dev (lfn.lfnEntryCount + 1) (place v c') c' (l1.getLastD 0) base a s)
    (h : writeTransacted v st (newEntries lfn now writable idx) s = .ok st') :
    Created v st st' d.chain d.chain lfn st.dev (before v l1 c' a)
      (behind v l2 c' a (lfn.lfnEntryCount + 1)) (place v c' + 32 * a) := by
  have hlinked := d.linked
  have hstart := d.start_eq
  have hwf := d.wellFormed
  have hnodup := d.linked.nodup
  rw [hchain] at hwalk hlinked hstart hwf hnodup ⊢
  obtain ⟨hfat, hstart', b, ins, hsits, hnot, hins, dev, hdev, hdata⟩ :=
    writeTransacted_fat hwalk hlinked hstart hplace.resultCluster hplace.prevCluster h
  cases hplace.insPoint.symm.trans hins
  have hsame : ∀ de ∈ entriesOf v (l1 ++ c' :: l2), ∀ j < 32, st.dev (de + j) = dev (de + j) :=
    fun de hde j hj => (hdev _ (entry_apart hwalk.lt hsits hnot hde hj)).symm
  have hinserted := inserted_of_write idx now writable ha hattr hwalk.lt hnodup hwf hplace.free
    hsame
  obtain ⟨hwalk', hlinked'⟩ := chain_congr hwalk hlinked hfat
  refine ⟨hwalk', hlinked', hstart', entriesOf_split ha, hwf,
    fun _ _ _ _ => rfl, ⟨[], (append_nil _).symm, nofun⟩, ?_, ?_⟩
  · rw [hdata]
    exact hinserted
  · rw [hdata]
    exact used_of_write dev

/-- The directory gets another cluster. -/
theorem created_extended (d : Directory v st) (hwalk : Walk v st.fat d.chain)
    (hfree : isFree (st.fat alloc) = true) (hsits : Sits v alloc)
    (hplace : Place (taken v st alloc).dev (lfn.lfnEntryCount + 1) (place v alloc) alloc
      (d.chain.getLastD 0) base a s)
    (h : writeExtended v (taken v st alloc) (newEntries lfn now writable idx) s alloc = .ok st') :
    Created v st st' d.chain (d.chain ++ [alloc]) lfn (taken v st alloc).dev
      (before v d.chain alloc a) (behind v [] alloc a (lfn.lfnEntryCount + 1))
      (place v alloc + 32 * a) := by
  obtain ⟨chain, hlinked, hstart, hwf, hends⟩ := d
  cases chain with
  | nil => exact absurd hlinked id
  | cons c l =>
    have hnot : alloc ∉ c :: l := by
      intro hmem
      rw [not_free_of_linked hlinked alloc hmem] at hfree
      cases hfree
    rw [getLastD_cons] at hplace
    obtain ⟨hfat, hlast, hmark, hstart', ins, hins, hdata⟩ :=
      writeExtended_fat hwalk.lt hnot hplace.prevCluster hplace.resultCluster h
    cases hplace.insPoint.symm.trans hins
    have heof : 0x0FFFFFF8 ≤ link (st'.fat alloc) := by
      rw [hmark]
      decide
    have hsits' : ∀ c' ∈ c :: l ++ [alloc], Sits v c' :=
      forall_mem_append.2 ⟨hwalk.lt, forall_mem_singleton.2 hsits⟩
    have hsame : ∀ de ∈ entriesOf v (c :: l), ∀ j < 32,
        st.dev (de + j) = (taken v st alloc).dev (de + j) := by
      intro de hde j hj
      have hout := entry_apart hwalk.lt hsits hnot hde hj
      exact (poke_outside (by rw [length_replicate]; exact hout)).symm
    have hnew : ∀ de ∈ entriesOf v [alloc], isDirentFree (taken v st alloc).dev de = true := by
      intro de hde
      obtain ⟨c', hc', k, hk, rfl⟩ := mem_entriesOf.mp hde
      rw [mem_singleton.mp hc']
      exact taken_free hk
    have hwf' : WellFormed (taken v st alloc).dev (entriesOf v (c :: l ++ [alloc])) := by
      rw [entriesOf_append]
      exact (hwf.congr hsame).append_free hnew
    have hnodup : (c :: l ++ [alloc]).Nodup := by
      rw [nodup_append]
      refine ⟨hlinked.nodup, nodup_singleton alloc, ?_⟩
      intro x hx y hy heq
      rw [mem_singleton.mp hy] at heq
      exact hnot (heq ▸ hx)
    obtain ⟨hwalk', hlinked'⟩ :=
      chain_snoc hwalk hlinked hfat hlast hsits (hsits.isCluster hends) heof
    refine ⟨hwalk', hlinked', hstart'.trans hstart, entriesOf_split ha, hwf', hsame,
      ⟨_, entriesOf_append v (c :: l) [alloc], hnew⟩, ?_, ?_⟩
    · rw [hdata]
      exact inserted_of_write idx now writable ha hattr hsits' hnodup hwf' hplace.free
        fun _ _ _ _ => rfl
    · rw [hdata]
      exact used_of_write _

end Inserted

theorem writeTransacted_full (hfull : Full v st)
    (h : writeTransacted v st new s = .ok st') : False := by
  obtain ⟨⟨b, st1⟩, htrans, h⟩ := bind_eq_ok h
  obtain ⟨st2, -, h⟩ := bind_eq_ok h
  obtain ⟨st3, -, h⟩ := bind_eq_ok h
  obtain ⟨⟨b', st4⟩, halloc, htrans⟩ := bind_eq_ok htrans
  obtain rfl : b' = 0 := hfull.allocateNear halloc
  cases htrans
  cases h

/-- Whatever `create_dirent` returns, its entries are over free ones of the directory. -/
theorem createDirent_created (d : Directory v st) (hwalk : Walk v st.fat d.chain) (arg : NameArg)
    (h : createDirent v st now writable arg.text arg.pos arg.name.bytes.length = .ok (p, st')) :
    ∃ chain' dev pre post ins, Created v st st' d.chain chain' arg.name.lfn dev pre post ins ∧
        p = ins + 32 * arg.name.lfn.lfnEntryCount := by
  rw [createDirent, ok_bind (direntsFromName_eq arg)] at h
  obtain ⟨⟨s, st1, ext⟩, hfind, h⟩ := bind_eq_ok h
  obtain ⟨st2, hwrite, h⟩ := bind_eq_ok h
  cases h
  obtain ⟨r, hiter, hr⟩ := bind_eq_ok hfind
  have hattr := arg.name.entries.attr
  have hcount : 0 < arg.name.lfn.lfnEntryCount + 1 := Nat.succ_pos _
  have hcase : ∃ c l, d.chain = c :: l := by
    have hl := d.linked
    cases hchain : d.chain with
    | nil =>
      rw [hchain] at hl
      exact absurd hl id
    | cons c l => exact ⟨c, l, rfl⟩
  obtain ⟨c, l, hchain⟩ := hcase
  have hstart := d.start_eq
  rw [hchain] at hstart
  rw [hstart] at hiter
  have hwalk' := hwalk
  rw [hchain] at hwalk'
  have hlt : ∀ c' ∈ c :: l, c' < 0x0FFFFFF8 := fun c' hc' =>
    Nat.lt_succ_of_lt ((hwalk'.lt c' hc').isCluster d.ends).2
  rcases iterateDir_insert hcount rfl rfl hwalk' hlt hiter with
    ⟨l1, c', l2, t, a, heq, rfl, ha, hplace⟩ | ⟨t, fuel, alloc, st3, hlast, hindex, halloc, hiter'⟩
  · cases hr
    refine ⟨_, _, _, _, _, created_inside ha hattr d (hchain.trans heq) hwalk hplace hwrite, ?_⟩
    rw [hplace.insPoint]
    rfl
  · rcases iterateDir_insert_new hcount hlast hindex d.ends halloc hiter' with
      ⟨hzero, hfull⟩ | ⟨hfree, hsits, rfl, t', a, rfl, ha, hplace⟩
    · cases hr
      rw [hzero] at hwrite
      exact (writeTransacted_full hfull hwrite).elim
    · cases hr
      have hne : ext ≠ 0 := by
        have := hsits.ge
        omega
      rw [writeEntries, if_pos hne] at hwrite
      have hprev : l.getLastD c = d.chain.getLastD 0 := by rw [hchain, getLastD_cons]
      rw [hprev] at hplace
      refine ⟨_, _, _, _, _, created_extended ha hattr d hwalk hfree hsits hplace hwrite, ?_⟩
      rw [hplace.insPoint]
      rfl

section Resolve

variable {chain' pre post : List Nat} {dev : Buf} {ins : Nat}
  (h : Created v st st' chain chain' lfn dev pre post ins)
include h

theorem Created.settled (hwf : WellFormed st.dev (entriesOf v chain)) :
    Settled dev (entriesOf v chain) := (hwf.congr h.same).settled

/-- Before the entries are written, nothing is found that was not there. -/
theorem Created.found_before (hwf : WellFormed st.dev (entriesOf v chain)) {units : List Nat}
    {lfn' : FullLfn} (hlfn' : lfn'.Spells units) :
    found lfn' dev (entriesOf v chain') = found lfn' st.dev (entriesOf v chain) := by
  obtain ⟨l, heq, hfree⟩ := h.grown
  rw [heq, found_append_free hlfn' (h.settled hwf) hfree, found_congr h.same]

/-- An entry that is found for another name keeps its bytes. -/
theorem Created.entry_same {q : Nat} (hq : q ∈ entriesOf v chain) (hmem : q ∈ pre ++ post) :
    peek st'.dev q 32 = peek st.dev q 32 := by
  rw [peek_eq_peek_iff]
  intro j hj
  rw [h.same q hq j hj]
  rcases mem_append.mp hmem with hpre | hpost
  · exact (h.inserted.pre_same q hpre j hj).symm
  · exact (h.inserted.post_same q hpost j hj).symm

end Resolve

/-- A name that would be a short entry alone, with the name of the short entry at `de`. -/
def ShortNameOf (n : Name) (dev : Buf) (de : Nat) : Prop :=
  n.lfn.lfnEntryCount = 0 ∧ peek n.lfn.fragments 0 11 = peek dev de 11

/-- **Creating a file.** A name that needs long entries is found at the new entry, and every other
name is found where it was before, or not found as before, unless it is the short name that the new
entry got. -/
theorem create_resolves (v : Volume) (st : St) (d : Directory v st) (arg : NameArg)
    (hlong : arg.name.lfn.lfnEntryCount ≠ 0) (hmissing : lookup v st arg = .ok none) (now : Stamp)
    (writable : Bool) (p : Nat) (st' : St)
    (hcreate : createDirent v st now writable arg.text arg.pos arg.name.bytes.length =
      .ok (p, st')) :
    lookup v st' arg = .ok (some p) ∧
      ∀ other : NameArg, other.name ≠ arg.name → ¬ ShortNameOf other.name st'.dev p →
        lookup v st' other = lookup v st other ∧
          ∀ q, lookup v st other = .ok (some q) → peek st'.dev q 32 = peek st.dev q 32 := by
  have hwalk := walk_of_missing d hmissing
  obtain ⟨chain', dev, pre, post, ins, h, rfl⟩ := createDirent_created d hwalk arg hcreate
  have hlt : ∀ {fat chain}, Walk v fat chain → ∀ c ∈ chain, c < 0x0FFFFFF8 := fun hw c hc =>
    Nat.lt_succ_of_lt ((hw.lt c hc).isCluster d.ends).2
  have hbefore := lookup_walk hwalk d.linked.nodup (hlt hwalk) d.start_eq
  have hafter := lookup_walk h.walk h.linked.nodup (hlt h.walk) h.start
  rw [hbefore, ← h.found_before d.wellFormed arg.name.entries, h.entries] at hmissing
  constructor
  · rw [hafter, h.entries, h.inserted.found_new arg.name.entries hlong (ok.inj hmissing)]
  · intro other hne hshort
    have hunits : other.name.units ≠ arg.name.units := fun heq => hne (Name.ext_units heq)
    obtain ⟨hsame, hmem⟩ := h.inserted.found_other arg.name.entries other.name.entries
      arg.name.isUnits other.name.isUnits hunits (fun h0 heq => hshort ⟨h0, heq.symm⟩)
    have hfound := h.found_before d.wellFormed other.name.entries
    rw [← h.entries] at hsame hmem
    rw [hbefore, hafter, hsame, hfound]
    refine ⟨rfl, fun q hq => ?_⟩
    have hq' := ok.inj hq
    exact h.entry_same (found_mem hq') (hmem q (hfound.trans hq'))

end Created

/-! ## A small directory -/

/-- What is expected of a creation: the new name is found where the caller goes on, every other
name as before. -/
def CreateRight (v : Volume) (st : St) (arg : NameArg) : Prop :=
  ∀ now writable p st', lookup v st arg = .ok none →
    createDirent v st now writable arg.text arg.pos arg.name.bytes.length = .ok (p, st') →
      lookup v st' arg = .ok (some p) ∧
        ∀ other : NameArg, other.name ≠ arg.name → lookup v st' other = lookup v st other

/-- A directory of one cluster, with these bytes. -/
def smallDir (bytes : List UInt8) : St where
  fat c := if c ≤ 2 then 0x0FFFFFFF else 0
  fat2 _ := 0
  dev := poke (fun _ => 0) (place smallVolume 2) bytes
  dirent := ⟨2, 0, 16, 0, 0⟩
  cachedOffset := 0
  cachedCluster := 0
  dirty := false

def ascii (codes : List Nat) (h : ∀ c ∈ codes, 0 < c ∧ c < 0x80) : List L1.Utf.Scalar :=
  codes.pmap (fun c hc => ⟨c, .inl (by omega), by omega⟩) h

/-- `A`, which is stored with a long entry. -/
def upperName : Name := ⟨ascii [0x41] (by decide), by decide, by decide, by decide⟩

/-- `foo.txt`, which is stored as a short entry alone. -/
def lowerName : Name :=
  ⟨ascii [0x66, 0x6F, 0x6F, 0x2E, 0x74, 0x78, 0x74] (by decide), by decide, by decide, by decide⟩

/-- `aaaa~999.aaa`, the short name of the first entry. -/
def aliasName : Name :=
  ⟨ascii [0x61, 0x61, 0x61, 0x61, 0x7E, 0x39, 0x39, 0x39, 0x2E, 0x61, 0x61, 0x61] (by decide),
    by decide, by decide, by decide⟩

/-- The name at the start of memory. -/
def Name.arg (n : Name) : NameArg :=
  ⟨n, poke (fun _ => 0) 0 n.bytes, 0, peek_poke_self (fun _ => 0) 0 n.bytes⟩

/-- A creation in a small directory, and a search after it. -/
def createThenLookup (st : St) (n other : Name) : Except Err (Nat × Option Nat) :=
  createDirent smallVolume st ⟨0, 0, 0⟩ true n.arg.text n.arg.pos n.bytes.length >>= fun r =>
    (lookup smallVolume r.2 other.arg).map (Prod.mk r.1)

variable {st : St} {n other : Name} {p : Nat} {q : Option Nat}

theorem createThenLookup_eq (h : createThenLookup st n other = .ok (p, q)) :
    ∃ st', createDirent smallVolume st ⟨0, 0, 0⟩ true n.arg.text n.arg.pos n.bytes.length =
      .ok (p, st') ∧ lookup smallVolume st' other.arg = .ok q := by
  obtain ⟨⟨p', st'⟩, hcreate, h⟩ := bind_eq_ok h
  cases hlookup : lookup smallVolume st' other.arg with
  | error e =>
    rw [hlookup] at h
    cases h
  | ok q' =>
    rw [hlookup] at h
    cases h
    exact ⟨st', hcreate, hlookup⟩

section

variable (h : CreateRight smallVolume st n.arg) (hmissing : lookup smallVolume st n.arg = .ok none)
include h hmissing

/-- Where a creation is right, the new name is found. -/
theorem CreateRight.found_new (hthen : createThenLookup st n n = .ok (p, q)) : q = some p := by
  obtain ⟨st', hcreate, hlookup⟩ := createThenLookup_eq hthen
  exact ok.inj (hlookup.symm.trans (h _ _ _ _ hmissing hcreate).1)

theorem CreateRight.found_other
    (hthen : createThenLookup st n other = .ok (p, q)) (hne : other ≠ n) :
    lookup smallVolume st other.arg = .ok q := by
  obtain ⟨st', hcreate, hlookup⟩ := createThenLookup_eq hthen
  exact ((h _ _ _ _ hmissing hcreate).2 other.arg hne).symm.trans hlookup

end

/-- In the empty directory `foo.txt` is not found after its creation, and with `A` the short name
`aaaa~999.aaa` is found too. Behind a long entry for `A` without its short entry, `A` is not found
after its creation. -/
theorem created_not_found : ¬ CreateRight smallVolume (smallDir []) lowerName.arg ∧
      ¬ CreateRight smallVolume (smallDir []) upperName.arg ∧
      ¬ CreateRight smallVolume (smallDir (peek upperName.lfn.fragments 0 32)) upperName.arg := by
  refine ⟨fun h => ?_, fun h => ?_, fun h => ?_⟩
  · have hthen : createThenLookup (smallDir []) lowerName lowerName = .ok (630784, none) := by
      decide +kernel
    cases h.found_new (by decide +kernel) hthen
  · have hthen : createThenLookup (smallDir []) upperName aliasName =
        .ok (630816, some 630816) := by decide +kernel
    have hne : aliasName ≠ upperName := fun heq => by
      have := congrArg (fun n => n.chars.length) heq
      revert this
      decide
    have hnone : lookup smallVolume (smallDir []) aliasName.arg = .ok none := by decide +kernel
    rw [h.found_other (by decide +kernel) hthen hne] at hnone
    cases hnone
  · have hthen : createThenLookup (smallDir (peek upperName.lfn.fragments 0 32)) upperName
        upperName = .ok (630848, none) := by decide +kernel
    cases h.found_new (by decide +kernel) hthen

/-- A directory with `foo.txt`. -/
def fooDir : St := smallDir (peek lowerName.lfn.fragments 0 11 ++ [0x20])

theorem fooDir_not_long : ∀ de ∈ entriesOf smallVolume [2], ¬ LiveLong fooDir.dev de := by
  have : ∀ de ∈ entriesOf smallVolume [2], fooDir.dev (de + 11) ≠ 0x0F := by decide +kernel
  exact fun de hde h => this de hde h.1

def fooDirectory : Directory smallVolume fooDir where
  chain := [2]
  linked := ⟨⟨by decide, by decide⟩, by decide⟩
  start_eq := rfl
  wellFormed := ⟨isChain_of_left fun de hde _ h => absurd h (fooDir_not_long de hde),
    fun de hde => fooDir_not_long de (mem_of_getLast? hde)⟩
  ends := .inl (by decide)

/-- `A` is created next to `foo.txt`. -/
theorem create_upper : ∃ st',
    createDirent smallVolume fooDir ⟨0, 0, 0⟩ true upperName.arg.text upperName.arg.pos
        upperName.bytes.length = .ok (630848, st') ∧
      lookup smallVolume st' upperName.arg = .ok (some 630848) ∧
      lookup smallVolume st' lowerName.arg = .ok (some 630784) := by
  have hthen : createThenLookup fooDir upperName lowerName = .ok (630848, some 630784) := by
    decide +kernel
  obtain ⟨st', hcreate, hfoo⟩ := createThenLookup_eq hthen
  exact ⟨st', hcreate, (create_resolves smallVolume fooDir fooDirectory upperName.arg
    (by decide) (by decide +kernel) ⟨0, 0, 0⟩ true 630848 st' hcreate).1, hfoo⟩

end Dgos.L3.Fat32

import Dgos.Core.Bytes
import Dgos.Core.Chain

/-!
# `pipe_t`: a byte queue over a pool of pages

`kernel/lib/pipe.cc` keeps four kinds of pages: pages of the pool that were never
handed out (`page_bump ≤ p`), the free list, the writer's chain
(`write_buffer_first` .. `write_buffer`) and the reader's chain (`read_buffer`).
The reader steals the writer's whole chain, and the `next` field of a page links
whichever chain the page is on.

Pages are numbered by their index in the pool. Both loops release `pipe_lock`
only in `wait_until`, so a section ends when its call returns or when it has to
wait (`EnqRes.wait`, `DeqRes.wait`). Inside a complete call nothing else runs: a
wait that returns `no_timeout` finds the pipe as it left it, and the call ends at
the first time-out (`enqueue`, `dequeue`, with the number of such wake-ups as an
argument; the result is then the `wait` that timed out).

Results:
* `calls_fifo`: over every list of complete calls, what was dequeued followed by what
  is still queued is what the enqueues accepted, every page is in one place, and a call
  whose waits do not time out is not short.
* `sections_fifo`: so it is when other calls run while one waits.
-/
namespace Dgos.L5.Pipe

open List Option Function Nat

/-- mirrors pipe.h:8-12: `PAGESIZE - sizeof(pipe_buffer_hdr_t)`. -/
def payload : Nat := 4096 - 64

/-- mirrors pipe.h:41-63. `next`, `size` and `buf` are the header fields
and the payload bytes of each page of the pool. -/
structure PipeT where
  writeBufferFirst : Option Nat
  writeBuffer : Option Nat
  readBuffer : Option Nat
  readOfs : Nat
  freeBuffer : Option Nat
  pagePool : Bool
  pageBump : Nat
  pageCapacity : Nat
  next : Nat → Option Nat
  size : Nat → Nat
  buf : Nat → Buf

/-- A pipe after `reserve(pages)`; the memory of the pool and `read_ofs` hold
whatever was there. mirrors pipe.cc:80-99 -/
def reserve (pages : Nat) (readOfs : Nat) (next : Nat → Option Nat) (size : Nat → Nat)
    (buf : Nat → Buf) : PipeT :=
  ⟨none, none, none, readOfs, none, true, 0, pages, next, size, buf⟩

/-- One pass of the loop of `allocate_page`: a page, a wait on `pipe_not_full`, or no
pool at all. -/
inductive PageRes where
  | page (p : Nat) (s : PipeT)
  | wait
  | noPool

/-- mirrors pipe.cc:38-70 -/
def allocatePage (s : PipeT) : PageRes :=
  if s.pagePool then
    match s.freeBuffer with
    | some p => .page p { s with
        freeBuffer := s.next p
        next := update s.next p none
        size := update s.size p 0 }
    | none =>
      if s.pageBump < s.pageCapacity then
        .page s.pageBump { s with
          next := update s.next s.pageBump none
          size := update s.size s.pageBump 0
          pageBump := s.pageBump + 1 }
      else .wait
  else .noPool

/-- mirrors pipe.cc:72-78 -/
def freePage (s : PipeT) (p : Nat) : PipeT :=
  { s with
    next := update s.next p s.freeBuffer
    size := update s.size p 0
    freeBuffer := some p }

/-- `*ptr_to_next_ptr = new_write_buffer`.
mirrors pipe.cc:137-143 -/
def attach (s : PipeT) (p : Nat) : PipeT :=
  match s.writeBuffer with
  | some w => { s with next := update s.next w (some p), writeBuffer := some p }
  | none => { s with writeBufferFirst := some p, writeBuffer := some p }

/-- The copy of the `transferred` bytes `bs` into the current write buffer `w`.
mirrors pipe.cc:149-160 -/
def fill (s : PipeT) (w : Nat) (bs : List UInt8) : PipeT :=
  { s with
    buf := update s.buf w (poke (s.buf w) (s.size w) bs)
    size := update s.size w (s.size w + bs.length) }

inductive EnqRes where
  | done (s : PipeT) (sent : Nat)
  | wait (s : PipeT) (data : List UInt8) (sent : Nat)

def EnqRes.pipe : EnqRes → PipeT
  | .done s _ => s
  | .wait s _ _ => s

def EnqRes.sent : EnqRes → Nat
  | .done _ n => n
  | .wait _ _ n => n

/-- `write_buffer` has room, so no new page is needed. -/
def room (s : PipeT) : Option Nat :=
  match s.writeBuffer with
  | some w => if s.size w = payload then none else some w
  | none => none

/-- The loop of `enqueue`, up to its end or its next wait. `inAlloc` is set when the
loop is resumed inside `allocate_page` after a wait.
mirrors pipe.cc:119-167 -/
def enqLoop : Nat → Bool → PipeT → List UInt8 → Nat → Option EnqRes
  | _, _, s, [], sent => some (.done s sent)
  | 0, _, _, _ :: _, _ => none
  | fuel + 1, inAlloc, s, data, sent =>
    match (if inAlloc then none else room s) with
    | some w =>
      let n := min (payload - s.size w) data.length
      enqLoop fuel false (fill s w (data.take n)) (data.drop n) (sent + n)
    | none =>
      match allocatePage s with
      | .noPool => some (.done s sent)
      | .wait => some (.wait s data sent)
      | .page p s1 =>
        let s2 := attach s1 p
        let n := min (payload - s2.size p) data.length
        enqLoop fuel false (fill s2 p (data.take n)) (data.drop n) (sent + n)

/-- A complete `enqueue`: `wakes` waits return `no_timeout` before one times out.
Returns `sent`. mirrors pipe.cc:106-175 -/
def enqueue (s : PipeT) (data : List UInt8) (wakes : Nat) : Option EnqRes :=
  enqLoop data.length false s data 0 >>= go wakes
where
  go : Nat → EnqRes → Option EnqRes
    | k + 1, .wait s data sent => enqLoop data.length true s data sent >>= go k
    | _, r => some r

inductive DeqRes where
  | done (s : PipeT) (out : List UInt8)
  | wait (s : PipeT) (size : Nat) (out : List UInt8)

def DeqRes.pipe : DeqRes → PipeT
  | .done s _ => s
  | .wait s _ _ => s

def DeqRes.out : DeqRes → List UInt8
  | .done _ out => out
  | .wait _ _ out => out

/-- Reads from page `r` of the reader's chain; the page is recycled once consumed.
mirrors pipe.cc:187-210 -/
def drain (s : PipeT) (r n : Nat) : PipeT :=
  if s.readOfs + n = s.size r then
    freePage { s with readBuffer := s.next r, readOfs := 0 } r
  else { s with readOfs := s.readOfs + n }

/-- The reader takes the writer's whole chain.
mirrors pipe.cc:214-219 -/
def steal (s : PipeT) : PipeT :=
  { s with readBuffer := s.writeBufferFirst, readOfs := 0, writeBufferFirst := none,
           writeBuffer := none }

/-- The loop of `dequeue`, up to its end or its next wait; `out` are the bytes copied
so far. mirrors pipe.cc:183-226 -/
def deqLoop : Nat → PipeT → Nat → List UInt8 → Option DeqRes
  | _, s, 0, out => some (.done s out)
  | 0, _, _ + 1, _ => none
  | fuel + 1, s, size + 1, out =>
    match s.readBuffer with
    | some r =>
      let n := min (s.size r - s.readOfs) (size + 1)
      deqLoop fuel (drain s r n) (size + 1 - n) (out ++ peek (s.buf r) s.readOfs n)
    | none =>
      match s.writeBuffer with
      | some _ => deqLoop fuel (steal s) (size + 1) out
      | none => some (.wait s (size + 1) out)

/-- A complete `dequeue`: `wakes` waits return `no_timeout` before one times out.
Returns the bytes copied to the caller. mirrors pipe.cc:177-229 -/
def dequeue (s : PipeT) (size wakes : Nat) : Option DeqRes :=
  deqLoop (2 * size + 1) s size [] >>= go wakes
where
  go : Nat → DeqRes → Option DeqRes
    | k + 1, .wait s size out => deqLoop (2 * size + 1) s size out >>= go k
    | _, r => some r

/-! ## Invariant -/

/-- Every page below `page_bump` is in hand (`hd`) or on exactly one of the chains. -/
structure Shape (s : PipeT) (hd fl wl rl : List Nat) : Prop where
  free : Chain s.next s.freeBuffer fl
  write : Chain s.next s.writeBufferFirst wl
  last : s.writeBuffer = wl.getLast?
  read : Chain s.next s.readBuffer rl
  nodup : (hd ++ (fl ++ (wl ++ rl))).Nodup
  bump : ∀ p, p < s.pageBump ↔ p ∈ hd ++ (fl ++ (wl ++ rl))
  pool : s.pagePool = true ∧ s.pageBump ≤ s.pageCapacity

/-- No page of a chain is empty, and the reader has not consumed its page. -/
structure Sizes (s : PipeT) (wl rl : List Nat) : Prop where
  write : ∀ p ∈ wl, 0 < s.size p ∧ s.size p ≤ payload
  read : ∀ p ∈ rl, 0 < s.size p
  ofs : ∀ r ∈ rl.head?, s.readOfs < s.size r

structure Inv (s : PipeT) (fl wl rl : List Nat) : Prop where
  shape : Shape s [] fl wl rl
  sizes : Sizes s wl rl

/-- The bytes of a page. -/
def page (s : PipeT) (p : Nat) : List UInt8 := peek (s.buf p) 0 (s.size p)

/-- The bytes the reader still has to deliver from its chain. -/
def unread (s : PipeT) : List Nat → List UInt8
  | [] => []
  | r :: rl => peek (s.buf r) s.readOfs (s.size r - s.readOfs) ++ rl.flatMap (page s)

/-- The abstract queue: what the reader holds, then what the writer holds. -/
def contents (s : PipeT) (wl rl : List Nat) : List UInt8 := unread s rl ++ wl.flatMap (page s)

variable {s s' s1 : PipeT} {fl wl rl l ws wl1 : List Nat} {data out : List UInt8}
  {size p fuel w n sent : Nat}

theorem flatMap_page_congr (h : ∀ p ∈ l, s'.buf p = s.buf p ∧ s'.size p = s.size p) :
    l.flatMap (page s') = l.flatMap (page s) :=
  flatMap_congr fun p hp => by rw [page, page, (h p hp).1, (h p hp).2]

theorem unread_congr (ho : s'.readOfs = s.readOfs)
    (h : ∀ p ∈ l, s'.buf p = s.buf p ∧ s'.size p = s.size p) : unread s' l = unread s l := by
  cases l with
  | nil => rfl
  | cons r l =>
    simp only [unread, ho, (h r mem_cons_self).1, (h r mem_cons_self).2]
    rw [flatMap_page_congr fun p hp => h p (mem_cons_of_mem r hp)]

theorem Sizes.congr (hz : Sizes s wl rl) (ho : s'.readOfs = s.readOfs)
    (h : ∀ p ∈ wl ++ rl, s'.size p = s.size p) : Sizes s' wl rl := by
  rw [forall_mem_append] at h
  refine ⟨fun p hp => ?_, fun p hp => ?_, fun r hr => ?_⟩
  · rw [h.1 p hp]; exact hz.write p hp
  · rw [h.2 p hp]; exact hz.read p hp
  · rw [h.2 r (mem_of_mem_head? hr), ho]; exact hz.ofs r hr

/-! ## Pages -/

/-- A page that is on no chain is taken in hand; its header is cleared. -/
theorem Shape.take (h : Shape s [] fl wl rl) (hsame : s' = { s with
      freeBuffer := s'.freeBuffer, pageBump := s'.pageBump, next := update s.next p none
      size := update s.size p 0 }) {fl' : List Nat} (hf : Chain s.next s'.freeBuffer fl')
    (hout : p ∉ fl' ++ (wl ++ rl)) (hnd : (fl' ++ (wl ++ rl)).Nodup)
    (hb : ∀ q, q < s'.pageBump ↔ q ∈ [p] ++ (fl' ++ (wl ++ rl)))
    (hle : s'.pageBump ≤ s.pageCapacity) :
    Shape s' [p] fl' wl rl ∧ s'.next p = none ∧ s'.size p = 0 ∧ s'.buf = s.buf ∧
      s'.readOfs = s.readOfs ∧ ∀ q ≠ p, s'.size q = s.size q := by
  have hout' := hout
  simp only [mem_append, not_or] at hout
  rw [hsame]
  exact ⟨⟨hf.update_of_not_mem hout.1, h.write.update_of_not_mem hout.2.1, h.last,
    h.read.update_of_not_mem hout.2.2, nodup_cons.2 ⟨hout', hnd⟩, hb, h.pool.1, hle⟩, update_self ..,
    update_self .., rfl, rfl, fun q hq => update_of_ne hq _ _⟩

/-- What `allocate_page` can return: a page in hand, linked nowhere, or nothing with
every page on a chain. -/
theorem allocatePage_spec (h : Shape s [] fl wl rl) :
    (∃ p s1 fl', allocatePage s = .page p s1 ∧ Shape s1 [p] fl' wl rl ∧ s1.next p = none ∧
      s1.size p = 0 ∧ s1.buf = s.buf ∧ s1.readOfs = s.readOfs ∧
      ∀ q ≠ p, s1.size q = s.size q) ∨ allocatePage s = .wait := by
  have hf := h.free
  have hnd := h.nodup
  have hb := h.bump
  rw [allocatePage, if_pos h.pool.1]
  cases hfb : s.freeBuffer <;> rw [hfb] at hf
  case some p =>
    cases fl with
    | nil => cases hf
    | cons a fl =>
      obtain ⟨he, hf⟩ := hf
      cases he
      obtain ⟨hout, hnd⟩ := nodup_cons.1 hnd
      exact .inl ⟨p, _, fl, rfl, h.take rfl hf hout hnd hb h.pool.2⟩
  case none =>
    simp only
    split_ifs with hlt
    · refine .inl ⟨s.pageBump, _, fl, rfl, h.take rfl hf (fun hm => ?_) hnd (fun p => ?_) hlt⟩
      · exact lt_irrefl _ ((hb _).2 hm)
      · have := hb p
        simp only [nil_append, cons_append, mem_cons] at this ⊢
        rw [← this]; omega
    · exact .inr rfl

/-- Linking the page in hand behind the writer's last page. -/
theorem attach_spec (h : Shape s [p] fl wl rl) (hn : s.next p = none) :
    Shape (attach s p) [] fl (wl ++ [p]) rl ∧ (attach s p).size = s.size ∧
      (attach s p).buf = s.buf ∧ (attach s p).readOfs = s.readOfs := by
  obtain ⟨hf, hw, hl, hr, hnd, hb, hle⟩ := h
  have hperm : (p :: (fl ++ (wl ++ rl))).Perm (fl ++ (wl ++ [p] ++ rl)) := by
    have : (fl ++ (wl ++ [p] ++ rl)) = (fl ++ wl) ++ p :: rl := by simp
    rw [this]
    exact (perm_middle.trans (by simp)).symm
  have hnd' := hperm.nodup_iff.1 hnd
  have hb' : ∀ q, q < s.pageBump ↔ q ∈ fl ++ (wl ++ [p] ++ rl) := fun q =>
    (hb q).trans hperm.mem_iff
  simp only [cons_append, nil_append, nodup_cons, mem_append, not_or] at hnd
  obtain ⟨⟨hpf, hpw, hpr⟩, hnd⟩ := hnd
  unfold attach
  rcases eq_nil_or_concat' wl with rfl | ⟨ws, w, rfl⟩
  · rw [hl]
    exact ⟨⟨hf, ⟨rfl, hn⟩, rfl, hr, hnd', hb', hle⟩, rfl, rfl, rfl⟩
  have hl' : s.writeBuffer = some w := by simp [hl]
  rw [hl']
  have hdis := nodup_append.1 hnd
  have hdis' := nodup_append.1 hdis.2.1
  have hwf : w ∉ fl := fun hm => hdis.2.2 w hm w (by simp) rfl
  have hwr : w ∉ rl := fun hm => hdis'.2.2 w (by simp) w hm rfl
  refine ⟨⟨hf.update_of_not_mem hwf, hw.snoc hdis'.1 hpw hn, ?_, hr.update_of_not_mem hwr,
    hnd', hb', hle⟩, rfl, rfl, rfl⟩
  simp

/-! ## `enqueue` -/

/-- Copying `bs` into the last write page `w`, which may be a fresh, still empty page. -/
theorem fill_spec (bs : List UInt8) (h : Shape s [] fl (ws ++ [w]) rl)
    (hz : Sizes s ws rl) (hpos : 0 < s.size w + bs.length) (hfit : s.size w + bs.length ≤ payload) :
    Inv (fill s w bs) fl (ws ++ [w]) rl ∧
      contents (fill s w bs) (ws ++ [w]) rl = contents s (ws ++ [w]) rl ++ bs := by
  have hnd := (nodup_append.1 (nodup_append.1 h.nodup).2.1).2.1
  have hdis := nodup_append.1 hnd
  have hww := nodup_append.1 hdis.1
  have hrl : ∀ p ∈ rl, p ≠ w := fun p hp e => hdis.2.2 w (by simp) p hp e.symm
  have hws : ∀ p ∈ ws, p ≠ w := fun p hp e => hww.2.2 p hp w (by simp) e
  have frame : ∀ p ≠ w, (fill s w bs).buf p = s.buf p ∧ (fill s w bs).size p = s.size p :=
    fun p hp => ⟨update_of_ne hp _ _, update_of_ne hp _ _⟩
  have hsz : (fill s w bs).size w = s.size w + bs.length := update_self ..
  have hz' : Sizes (fill s w bs) ws rl :=
    hz.congr rfl fun p hp => (frame p (forall_mem_append.2 ⟨hws, hrl⟩ p hp)).2
  refine ⟨⟨⟨h.free, h.write, h.last, h.read, h.nodup, h.bump, h.pool⟩, ?_, hz'.read, hz'.ofs⟩, ?_⟩
  · exact forall_mem_append.2 ⟨hz'.write, forall_mem_singleton.2 (hsz ▸ ⟨hpos, hfit⟩)⟩
  · have hw : page (fill s w bs) w = page s w ++ bs := by
      have hb : (fill s w bs).buf w = poke (s.buf w) (s.size w) bs := update_self ..
      unfold page
      rw [hb, hsz]
      simpa using peek_poke_append (s.buf w) 0 (s.size w) bs (zero_le _)
    unfold contents
    have hof : (fill s w bs).readOfs = s.readOfs := rfl
    rw [unread_congr hof fun p hp => frame p (hrl p hp)]
    simp only [flatMap_append, flatMap_cons, flatMap_nil, append_nil, append_assoc, hw]
    rw [flatMap_page_congr fun p hp => frame p (hws p hp)]

/-- What a section of `enqueue` does to the queue: the first `n` bytes of `data` go in, all of
them unless it ends in a wait, and then it still has the rest to send. -/
structure EnqSpec (s : PipeT) (wl rl : List Nat) (data : List UInt8) (sent n : Nat) (r : EnqRes) :
    Prop where
  le : n ≤ data.length
  sent : r.sent = sent + n
  rest : ∀ s' d k, r = .wait s' d k → d = data.drop n
  full : ∀ s' k, r = .done s' k → n = data.length
  inv : ∃ fl' wl', Inv r.pipe fl' wl' rl ∧ contents r.pipe wl' rl = contents s wl rl ++ data.take n

theorem EnqSpec.zero {r : EnqRes} (hi : Inv s fl wl rl) (hp : r.pipe = s) (hs : r.sent = sent)
    (hr : ∀ s' d k, r = .wait s' d k → d = data) (hd : ∀ s' k, r = .done s' k → data = []) :
    EnqSpec s wl rl data sent 0 r := by
  refine ⟨zero_le _, hs, hr, fun s' k h => by rw [hd s' k h]; rfl, fl, wl, ?_, ?_⟩
  · rw [hp]; exact hi
  · rw [hp]; simp

/-- A step that copied `n1` bytes followed by a section that copies `n2` more. -/
theorem EnqSpec.trans {n1 n2 : Nat} {r : EnqRes}
    (hn : n1 ≤ data.length) (hc : contents s1 wl1 rl = contents s wl rl ++ data.take n1)
    (h : EnqSpec s1 wl1 rl (data.drop n1) (sent + n1) n2 r) :
    EnqSpec s wl rl data sent (n1 + n2) r := by
  obtain ⟨hle, hs, hrest, hfull, fl', wl', hi, hcont⟩ := h
  rw [length_drop] at hle hfull
  refine ⟨by omega, by omega, ?_, fun s' k e => ?_, fl', wl', hi, ?_⟩
  · intro s' d k e
    rw [hrest s' d k e, drop_drop]
  · have := hfull s' k e
    omega
  · rw [hcont, hc, append_assoc, ← take_add]

/-- `m` bytes fit into the write page `w` of `s1`, and the loop goes on behind them. -/
theorem enqLoop_fill {fl1 : List Nat}
    (ih : ∀ sent s data fl wl, Inv s fl wl rl → data.length ≤ fuel →
      ∃ r n, enqLoop fuel false s data sent = some r ∧ EnqSpec s wl rl data sent n r)
    (hf : data.length ≤ fuel + 1) (hd : data ≠ []) (hsh : Shape s1 [] fl1 (ws ++ [w]) rl)
    (hz : Sizes s1 ws rl) (hlt : s1.size w < payload)
    (hc : contents s1 (ws ++ [w]) rl = contents s wl rl) :
    ∃ r n, enqLoop fuel false (fill s1 w (data.take (min (payload - s1.size w) data.length)))
      (data.drop (min (payload - s1.size w) data.length))
      (sent + min (payload - s1.size w) data.length) = some r ∧ EnqSpec s wl rl data sent n r := by
  have hpos := length_pos_of_ne_nil hd
  generalize hm : min (payload - s1.size w) data.length = m
  have hlen : (data.take m).length = m := by rw [length_take]; omega
  obtain ⟨hi1, hc1⟩ := fill_spec (data.take m) hsh hz (by omega) (by omega)
  obtain ⟨r, n, hr, hspec⟩ := ih (sent + m) _ (data.drop m) _ _ hi1 (by
    rw [length_drop]; omega)
  exact ⟨r, m + n, hr, .trans (by omega) (by rw [hc1, hc]) hspec⟩

/-- The loop of `enqueue` ends, with one iteration for every byte at most. -/
theorem enqLoop_spec (inAlloc : Bool) (sent : Nat) (hi : Inv s fl wl rl) (hf : data.length ≤ fuel) :
    ∃ r n, enqLoop fuel inAlloc s data sent = some r ∧ EnqSpec s wl rl data sent n r := by
  induction fuel generalizing inAlloc s data sent fl wl with
  | zero =>
    obtain rfl := eq_nil_of_length_eq_zero (le_zero.1 hf)
    exact ⟨.done s sent, 0, rfl, .zero hi rfl rfl nofun fun _ _ _ => rfl⟩
  | succ fuel ih =>
    by_cases hd : data = []
    · subst hd
      exact ⟨.done s sent, 0, rfl, .zero hi rfl rfl nofun fun _ _ _ => rfl⟩
    rw [enqLoop]
    · cases hroom : (if inAlloc = true then none else room s) with
      | some w =>
        obtain ⟨-, hrw⟩ := Option.ite_none_left_eq_some.1 hroom
        have hlast : s.writeBuffer = some w ∧ s.size w ≠ payload := by
          unfold room at hrw
          split at hrw
          · split at hrw
            · cases hrw
            · cases hrw; exact ⟨by assumption, by assumption⟩
          · cases hrw
        rw [hi.shape.last] at hlast
        obtain ⟨ws, rfl⟩ := getLast?_eq_some_iff.1 hlast.1
        have hwz := hi.sizes.write w (by simp)
        have hz : Sizes s ws rl :=
          ⟨fun p hp => hi.sizes.write p (by simp [hp]), hi.sizes.read, hi.sizes.ofs⟩
        exact enqLoop_fill (fun sent _ _ _ _ => ih false sent) hf hd hi.shape hz (by omega) rfl
      | none =>
        rcases allocatePage_spec hi.shape with
          ⟨p, s1, fl1, ha, hsh, hpn, hps, hpb, hpo, hfr⟩ | ha
        · rw [ha]
          obtain ⟨hsh2, hsz2, hbf2, hof2⟩ := attach_spec hsh hpn
          have hne : ∀ q ∈ wl ++ rl, q ≠ p := fun q hq e =>
            (nodup_cons.1 hsh.nodup).1 (e ▸ mem_append_right fl1 hq :)
          have hsame : ∀ q ∈ wl ++ rl, (attach s1 p).buf q = s.buf q ∧
              (attach s1 p).size q = s.size q := fun q hq => by
            rw [hbf2, hpb, hsz2, hfr q (hne q hq)]; exact ⟨rfl, rfl⟩
          have hz : Sizes (attach s1 p) wl rl :=
            hi.sizes.congr (hof2.trans hpo) fun q hq => (hsame q hq).2
          have hps2 : (attach s1 p).size p = 0 := by rw [hsz2, hps]
          refine enqLoop_fill (fun sent _ _ _ _ => ih false sent) hf hd hsh2 hz
            (by rw [hps2]; decide) ?_
          unfold contents
          rw [unread_congr (by rw [hof2, hpo]) fun q hq => hsame q (by simp [hq]),
            flatMap_append, flatMap_page_congr fun q hq => hsame q (by simp [hq])]
          simp [page, hps2]
        · rw [ha]
          exact ⟨_, 0, rfl, .zero hi rfl rfl (by simp) nofun⟩
    · exact hd

/-! ## `dequeue` -/

/-- Reading `n > 0` bytes off the first page of the reader's chain. -/
theorem drain_spec {r : Nat} (hi : Inv s fl wl (r :: rl)) (hn : n ≤ s.size r - s.readOfs) :
    ∃ fl' rl', Inv (drain s r n) fl' wl rl' ∧
      contents s wl (r :: rl) = peek (s.buf r) s.readOfs n ++ contents (drain s r n) wl rl' := by
  obtain ⟨⟨hf, hw, hl, hr, hnd, hb, hle⟩, hzw, hzr, hzo⟩ := hi
  have ho := hzo r rfl
  have hsplit : peek (s.buf r) s.readOfs (s.size r - s.readOfs) =
      peek (s.buf r) s.readOfs n ++ peek (s.buf r) (s.readOfs + n) (s.size r - s.readOfs - n) := by
    rw [← peek_add]; congr 1; omega
  unfold drain
  split_ifs with hend
  · -- the page is consumed: it moves from the reader's chain to the free list
    have hperm : (fl ++ (wl ++ r :: rl)).Perm (r :: fl ++ (wl ++ rl)) := by
      rw [← append_assoc, ← append_assoc]
      exact perm_middle
    have hnd' := hperm.nodup_iff.1 hnd
    have hb' : ∀ p, p < s.pageBump ↔ p ∈ r :: fl ++ (wl ++ rl) := fun p =>
      (hb p).trans hperm.mem_iff
    simp only [cons_append, nodup_cons, mem_append, not_or] at hnd'
    obtain ⟨⟨hrf, hrw, hrr⟩, hnd''⟩ := hnd'
    have hfr : ∀ p, p ≠ r →
        (freePage { s with readBuffer := s.next r, readOfs := 0 } r).buf p = s.buf p ∧
        (freePage { s with readBuffer := s.next r, readOfs := 0 } r).size p = s.size p :=
      fun p hp => ⟨rfl, update_of_ne hp _ _⟩
    have hnw : ∀ p ∈ wl, p ≠ r := fun p hp e => hrw (e ▸ hp)
    have hnr : ∀ p ∈ rl, p ≠ r := fun p hp e => hrr (e ▸ hp)
    refine ⟨r :: fl, rl, ⟨⟨hf.push hrf, hw.update_of_not_mem hrw, hl, ?_, hperm.nodup_iff.1 hnd,
      hb', hle⟩, ?_, ?_, ?_⟩, ?_⟩
    · exact hr.2.update_of_not_mem hrr
    · exact fun p hp => by rw [(hfr p (hnw p hp)).2]; exact hzw p hp
    · exact fun p hp => by rw [(hfr p (hnr p hp)).2]; exact hzr p (mem_cons_of_mem r hp)
    · intro p hp
      have hp' := mem_of_mem_head? hp
      rw [(hfr p (hnr p hp')).2]
      exact hzr p (mem_cons_of_mem r hp')
    · have hrest : unread (freePage { s with readBuffer := s.next r, readOfs := 0 } r) rl =
          rl.flatMap (page s) := by
        cases rl with
        | nil => rfl
        | cons q rl =>
          have hq := hnr q mem_cons_self
          simp only [unread, flatMap_cons]
          rw [(hfr q hq).2, flatMap_page_congr fun p hp =>
            hfr p (hnr p (mem_cons_of_mem q hp))]
          rfl
      unfold contents
      rw [hrest, flatMap_page_congr fun p hp => hfr p (hnw p hp)]
      simp only [unread]
      rw [hsplit, show s.size r - s.readOfs - n = 0 by omega]
      simp
  · refine ⟨fl, r :: rl, ⟨⟨hf, hw, hl, hr, hnd, hb, hle⟩, hzw, hzr, ?_⟩, ?_⟩
    · intro p hp
      cases hp
      show s.readOfs + n < s.size r
      omega
    · unfold contents
      simp only [unread]
      rw [hsplit, show s.size r - s.readOfs - n = s.size r - (s.readOfs + n) by omega]
      simp only [append_assoc]
      rfl

theorem steal_spec (hi : Inv s fl wl []) :
    Inv (steal s) fl [] wl ∧ contents (steal s) [] wl = contents s wl [] := by
  obtain ⟨⟨hf, hw, hl, hr, hnd, hb, hle⟩, hzw, hzr, hzo⟩ := hi
  refine ⟨⟨⟨hf, rfl, rfl, hw, ?_, ?_, hle⟩, by simp, fun p hp => (hzw p hp).1, ?_⟩, ?_⟩
  · simpa using hnd
  · simpa [steal] using hb
  · intro p hp
    exact (hzw p (mem_of_mem_head? hp)).1
  · unfold contents
    cases wl with
    | nil => rfl
    | cons w wl =>
      simp only [unread, flatMap_nil, append_nil, flatMap_cons, nil_append]
      rfl

/-- What a section of `dequeue` does to the queue: `bs` comes off its front, as many bytes as are
asked for unless it ends in a wait. -/
structure DeqSpec (s : PipeT) (wl rl : List Nat) (size : Nat) (out bs : List UInt8) (r : DeqRes) :
    Prop where
  le : bs.length ≤ size
  out : r.out = out ++ bs
  rest : ∀ s' k o, r = .wait s' k o → k = size - bs.length
  full : ∀ s' o, r = .done s' o → bs.length = size
  inv : ∃ fl' wl' rl', Inv r.pipe fl' wl' rl' ∧ contents s wl rl = bs ++ contents r.pipe wl' rl'

theorem DeqSpec.zero {r : DeqRes} (hi : Inv s fl wl rl) (hp : r.pipe = s) (ho : r.out = out)
    (hr : ∀ s' k o, r = .wait s' k o → k = size) (hd : ∀ s' o, r = .done s' o → 0 = size) :
    DeqSpec s wl rl size out [] r := by
  refine ⟨zero_le _, by simp [ho], hr, hd, fl, wl, rl, ?_, ?_⟩
  · rw [hp]; exact hi
  · rw [hp]; simp

/-- A step that took `bs1` off followed by a section that takes `bs2` off. -/
theorem DeqSpec.trans {rl1 : List Nat} {bs1 bs2 : List UInt8} {r : DeqRes}
    (hn : bs1.length ≤ size) (hc : contents s wl rl = bs1 ++ contents s1 wl1 rl1)
    (h : DeqSpec s1 wl1 rl1 (size - bs1.length) (out ++ bs1) bs2 r) :
    DeqSpec s wl rl size out (bs1 ++ bs2) r := by
  obtain ⟨hle, hout, hrest, hfull, fl', wl', rl', hi, hcont⟩ := h
  refine ⟨by rw [length_append]; omega, by rw [hout, append_assoc], ?_, fun s' o e => ?_, fl', wl',
    rl', hi, ?_⟩
  · intro s' k o e
    rw [hrest s' k o e, length_append, sub_add_eq]
  · have := hfull s' o e
    rw [length_append]
    omega
  · rw [hc, hcont, append_assoc]

/-- The loop of `dequeue` ends: every iteration delivers a byte, or steals the writer's
chain and is followed by one that does. -/
theorem deqLoop_spec (size : Nat) (out : List UInt8) (hi : Inv s fl wl rl)
    (hf : 2 * size + (if rl = [] then 1 else 0) ≤ fuel) :
    ∃ r bs, deqLoop fuel s size out = some r ∧ DeqSpec s wl rl size out bs r := by
  induction fuel generalizing s size out fl wl rl with
  | zero =>
    obtain rfl : size = 0 := by omega
    exact ⟨.done s out, [], rfl, .zero hi rfl rfl nofun fun _ _ _ => rfl⟩
  | succ fuel ih =>
    cases size with
    | zero => exact ⟨.done s out, [], rfl, .zero hi rfl rfl nofun fun _ _ _ => rfl⟩
    | succ size =>
    simp only [deqLoop]
    have hrb := hi.shape.read.eq_head?
    cases rl with
    | cons r rl =>
      rw [head?_cons] at hrb
      rw [hrb]
      simp only
      have ho := hi.sizes.ofs r rfl
      generalize hn : min (s.size r - s.readOfs) (size + 1) = n
      obtain ⟨fl', rl', hi', hc'⟩ := drain_spec hi (show n ≤ s.size r - s.readOfs by omega)
      obtain ⟨res, bs, hr, hspec⟩ := ih (size + 1 - n) (out ++ peek (s.buf r) s.readOfs n) hi'
        (by split <;> omega)
      exact ⟨res, _, hr, .trans (by rw [peek_length]; omega) hc' (by rwa [peek_length])⟩
    | nil =>
      rw [hrb]
      cases hwb : s.writeBuffer with
      | none => exact ⟨_, [], rfl, .zero hi rfl rfl (by simp) nofun⟩
      | some w =>
        obtain ⟨hi', hc'⟩ := steal_spec hi
        have hne : wl ≠ [] := by
          rintro rfl
          rw [hi.shape.last] at hwb
          cases hwb
        obtain ⟨res, bs, hr, hle, hout, hrest, hfull, hinv⟩ :=
          ih (size + 1) out hi' (by rw [if_neg hne]; simp at hf; omega)
        exact ⟨res, bs, hr, hle, hout, hrest, hfull, hc' ▸ hinv⟩

/-! ## Complete calls -/

theorem enqueue_go_spec (wakes : Nat) {r : EnqRes} (h : EnqSpec s wl rl data 0 n r) :
    ∃ r' m, enqueue.go wakes r = some r' ∧ EnqSpec s wl rl data 0 m r' := by
  induction wakes generalizing n r with
  | zero => exact ⟨r, n, rfl, h⟩
  | succ wakes ih =>
    cases r with
    | done s' k => exact ⟨.done s' k, n, rfl, h⟩
    | wait s' d k =>
      obtain rfl : k = n := h.sent.trans (Nat.zero_add n)
      obtain rfl := h.rest s' d k rfl
      obtain ⟨fl', wl', hi, hc⟩ := h.inv
      obtain ⟨r', m, hr', hspec⟩ := enqLoop_spec (s := s') true k hi (le_refl (data.drop k).length)
      obtain ⟨r2, m2, h2⟩ := ih (EnqSpec.trans h.le hc (by rwa [Nat.zero_add]))
      exact ⟨r2, m2, by rw [enqueue.go, hr']; exact h2.1, h2.2⟩

/-- A complete `enqueue` returns, and puts the first bytes of its data, as many as it returns,
behind what is queued. -/
theorem enqueue_spec (hi : Inv s fl wl rl) (data : List UInt8) (wakes : Nat) :
    ∃ r m, enqueue s data wakes = some r ∧ EnqSpec s wl rl data 0 m r := by
  obtain ⟨r, n, hr, hspec⟩ := enqLoop_spec false 0 hi (le_refl data.length)
  unfold enqueue
  rw [hr]
  exact enqueue_go_spec wakes hspec

theorem dequeue_go_spec (wakes : Nat) {bs : List UInt8} {r : DeqRes}
    (h : DeqSpec s wl rl size [] bs r) :
    ∃ r' out, dequeue.go wakes r = some r' ∧ DeqSpec s wl rl size [] out r' := by
  induction wakes generalizing bs r with
  | zero => exact ⟨r, bs, rfl, h⟩
  | succ wakes ih =>
    cases r with
    | done s' o => exact ⟨.done s' o, bs, rfl, h⟩
    | wait s' k o =>
      obtain rfl : o = bs := h.out
      obtain ⟨fl', wl', rl', hi, hc⟩ := h.inv
      obtain ⟨r', bs', hr', hspec⟩ := deqLoop_spec (s := s') k o hi
        (show _ ≤ 2 * k + 1 by split <;> omega)
      rw [h.rest s' k o rfl] at hspec
      obtain ⟨r2, out2, h2⟩ := ih (DeqSpec.trans h.le hc hspec)
      exact ⟨r2, out2, by rw [dequeue.go, hr']; exact h2.1, h2.2⟩

/-- A complete `dequeue` returns, and takes its bytes off the front of what is queued. -/
theorem dequeue_spec (hi : Inv s fl wl rl) (size wakes : Nat) :
    ∃ r out, dequeue s size wakes = some r ∧ DeqSpec s wl rl size [] out r := by
  obtain ⟨r, bs, hr, hspec⟩ := deqLoop_spec size [] hi (show _ ≤ 2 * size + 1 by split <;> omega)
  unfold dequeue
  rw [hr]
  exact dequeue_go_spec wakes hspec

inductive Call where
  | enqueue (data : List UInt8) (wakes : Nat)
  | dequeue (size wakes : Nat)

/-- A pipe with what its callers saw: the accepted bytes of every `enqueue` and the bytes
of every `dequeue`, each in call order. -/
structure Hist where
  pipe : PipeT
  accepted : List UInt8
  dequeued : List UInt8

def call (h : Hist) : Call → Option Hist
  | .enqueue data wakes =>
    (enqueue h.pipe data wakes).map fun r => { h with
      pipe := r.pipe, accepted := h.accepted ++ data.take r.sent }
  | .dequeue size wakes =>
    (dequeue h.pipe size wakes).map fun r => { h with
      pipe := r.pipe, dequeued := h.dequeued ++ r.out }

def calls : Hist → List Call → Option Hist
  | h, [] => some h
  | h, c :: cs => (call h c).bind fun h' => calls h' cs

/-- The bytes queued in a pipe, read off its chains. -/
def queued (s : PipeT) : List UInt8 :=
  contents s (walk s.next s.pageCapacity s.writeBufferFirst)
    (walk s.next s.pageCapacity s.readBuffer)

/-- The four places of a page of the pool. -/
inductive Place where
  | unused | free | writer | reader

def At (s : PipeT) (p : Nat) : Place → Prop
  | .unused => s.pageBump ≤ p
  | .free => ∃ l, Chain s.next s.freeBuffer l ∧ p ∈ l
  | .writer => ∃ l, Chain s.next s.writeBufferFirst l ∧ p ∈ l
  | .reader => ∃ l, Chain s.next s.readBuffer l ∧ p ∈ l

theorem at_iff {hd : List Nat} (h : Shape s hd fl wl rl) (p : Nat) :
    (At s p .free ↔ p ∈ fl) ∧ (At s p .writer ↔ p ∈ wl) ∧ (At s p .reader ↔ p ∈ rl) := by
  have key : ∀ (q : Option Nat) (l : List Nat), Chain s.next q l →
      ((∃ l', Chain s.next q l' ∧ p ∈ l') ↔ p ∈ l) := by
    intro q l hl
    constructor
    · rintro ⟨l', hl', hp⟩
      rwa [hl.unique hl']
    · exact fun hp => ⟨l, hl, hp⟩
  exact ⟨key _ _ h.free, key _ _ h.write, key _ _ h.read⟩

/-- Between sections every page of the pool is in exactly one place. -/
theorem place_unique (h : Shape s [] fl wl rl) (p : Nat) : ∃! pl, At s p pl := by
  obtain ⟨hf, hw, hr⟩ := at_iff h p
  have hb := h.bump p
  have hnd := nodup_append.1 h.nodup
  have hnd1 := nodup_append.1 hnd.2.1
  have hnd2 := nodup_append.1 hnd1.2.1
  have hu : At s p .unused ↔ ¬ (p ∈ fl ∨ p ∈ wl ∨ p ∈ rl) := by
    rw [show At s p .unused ↔ ¬ p < s.pageBump from not_lt.symm, hb]
    simp
  have d1 : p ∈ fl → ¬ (p ∈ wl ∨ p ∈ rl) := fun h1 h2 =>
    hnd1.2.2 p h1 p (mem_append.2 h2) rfl
  have d2 : p ∈ wl → p ∉ rl := fun h1 h2 => hnd2.2.2 p h1 p h2 rfl
  by_cases h1 : p ∈ fl
  · refine ⟨.free, hf.2 h1, fun pl hpl => ?_⟩
    cases pl <;> simp_all
  by_cases h2 : p ∈ wl
  · refine ⟨.writer, hw.2 h2, fun pl hpl => ?_⟩
    cases pl <;> simp_all
  · by_cases h3 : p ∈ rl
    · refine ⟨.reader, hr.2 h3, fun pl hpl => ?_⟩
      cases pl <;> simp_all
    · refine ⟨.unused, hu.2 (by simp [h1, h2, h3]), fun pl hpl => ?_⟩
      cases pl <;> simp_all

theorem queued_eq (h : Shape s [] fl wl rl) : queued s = contents s wl rl := by
  have hlen : ∀ l : List Nat, l.Nodup → (∀ p ∈ l, p ∈ fl ++ (wl ++ rl)) →
      l.length ≤ s.pageCapacity := fun l hl hm =>
    le_trans (length_le_of_nodup_lt hl fun p hp => (h.bump p).2 (by simpa using hm p hp)) h.pool.2
  have hnd := (nodup_append.1 (nodup_append.1 h.nodup).2.1).2.1
  unfold queued
  rw [h.write.walk_eq (hlen wl (nodup_append.1 hnd).1 fun p hp => by simp [hp]),
    h.read.walk_eq (hlen rl (nodup_append.1 hnd).2.1 fun p hp => by simp [hp])]

/-- What holds of a pipe and its history between calls. -/
structure HInv (h : Hist) : Prop where
  inv : ∃ fl wl rl, Inv h.pipe fl wl rl
  fifo : h.accepted = h.dequeued ++ queued h.pipe

theorem call_spec {h : Hist} (hi : HInv h) (c : Call) : ∃ h', call h c = some h' ∧ HInv h' := by
  obtain ⟨⟨fl, wl, rl, hinv⟩, hq⟩ := hi
  rw [queued_eq hinv.shape] at hq
  cases c with
  | enqueue data wakes =>
    obtain ⟨r, m, he, -, hsent, -, -, fl', wl', hi', hc'⟩ := enqueue_spec hinv data wakes
    refine ⟨_, by simp only [call, he]; rfl, ⟨fl', wl', rl, hi'⟩, ?_⟩
    simp [queued_eq hi'.shape, hc', hq, hsent]
  | dequeue size wakes =>
    obtain ⟨r, out, he, -, hout, -, -, fl', wl', rl', hi', hc'⟩ := dequeue_spec hinv size wakes
    refine ⟨_, by simp only [call, he]; rfl, ⟨fl', wl', rl', hi'⟩, ?_⟩
    simp [queued_eq hi'.shape, hq, hc', hout]

theorem calls_spec {h : Hist} (hi : HInv h) (cs : List Call) :
    ∃ h', calls h cs = some h' ∧ HInv h' := by
  induction cs generalizing h with
  | nil => exact ⟨h, rfl, hi⟩
  | cons c cs ih =>
    obtain ⟨h₁, hc, hi1⟩ := call_spec hi c
    obtain ⟨h', hcs, hi'⟩ := ih hi1
    exact ⟨h', by simp [calls, hc, hcs], hi'⟩

theorem reserve_inv (pages ofs : Nat) (next : Nat → Option Nat) (size : Nat → Nat)
    (buf : Nat → Buf) : Inv (reserve pages ofs next size buf) [] [] [] :=
  ⟨⟨rfl, rfl, rfl, rfl, nodup_nil, by simp [reserve], rfl, zero_le _⟩, by simp, by simp, by simp⟩

/-- A call is short only when it ends in a wait that times out. -/
structure NeverShort (s : PipeT) : Prop where
  enqueue : ∀ data wakes s' m, enqueue s data wakes = some (.done s' m) → m = data.length
  dequeue : ∀ size wakes s' out, dequeue s size wakes = some (.done s' out) → out.length = size

theorem Inv.neverShort (hi : Inv s fl wl rl) : NeverShort s where
  enqueue data wakes s' m h := by
    obtain ⟨r, n, hr, hspec⟩ := enqueue_spec hi data wakes
    obtain rfl := some.inj (hr.symm.trans h)
    rw [← hspec.full s' m rfl, ← Nat.zero_add n, ← hspec.sent]
    rfl
  dequeue size wakes s' out h := by
    obtain ⟨r, bs, hr, hspec⟩ := dequeue_spec hi size wakes
    obtain rfl := some.inj (hr.symm.trans h)
    obtain rfl : out = bs := hspec.out
    exact hspec.full s' out rfl

/-- **FIFO.** For every capacity, every content of the pool's memory and every list of
complete calls: all calls return, the dequeued bytes followed by the queued ones are
exactly the accepted bytes, so the dequeued bytes are a prefix of the accepted ones,
every page of the pool is in exactly one place, and the next call is short only on a
time-out. -/
theorem calls_fifo (pages ofs : Nat) (next : Nat → Option Nat) (size : Nat → Nat)
    (buf : Nat → Buf) (cs : List Call) :
    ∃ h, calls ⟨reserve pages ofs next size buf, [], []⟩ cs = some h ∧
      h.dequeued <+: h.accepted ∧ h.accepted = h.dequeued ++ queued h.pipe ∧
      (∀ p : Fin pages, ∃! pl, At h.pipe p pl) ∧ NeverShort h.pipe := by
  have hi := reserve_inv pages ofs next size buf
  obtain ⟨h, hc, ⟨fl, wl, rl, hinv⟩, hq⟩ := calls_spec (h := ⟨_, [], []⟩)
    ⟨⟨[], [], [], hi⟩, (queued_eq hi.shape).symm⟩ cs
  exact ⟨h, hc, ⟨queued h.pipe, hq.symm⟩, hq, fun p => place_unique hinv.shape p, hinv.neverShort⟩

/-! ## Calls that wait -/

/-- What a call has left to do at its begin or behind a wait. -/
inductive Section where
  | enqueue (inAlloc : Bool) (data : List UInt8)
  | dequeue (size : Nat)

/-- A call goes on to its end or to its next wait. -/
def sect (h : Hist) : Section → Option Hist
  | .enqueue inAlloc data =>
    (enqLoop data.length inAlloc h.pipe data 0).map fun r =>
      { h with pipe := r.pipe, accepted := h.accepted ++ data.take r.sent }
  | .dequeue size =>
    (deqLoop (2 * size + 1) h.pipe size []).map fun r =>
      { h with pipe := r.pipe, dequeued := h.dequeued ++ r.out }

theorem sect_spec {h : Hist} (hi : HInv h) (x : Section) : ∃ h', sect h x = some h' ∧ HInv h' := by
  obtain ⟨⟨fl, wl, rl, hinv⟩, hq⟩ := hi
  rw [queued_eq hinv.shape] at hq
  cases x with
  | enqueue inAlloc data =>
    obtain ⟨r, n, hr, -, hsent, -, -, fl', wl', hi', hc'⟩ :=
      enqLoop_spec inAlloc 0 hinv (le_refl data.length)
    refine ⟨_, by simp only [sect, hr]; rfl, ⟨fl', wl', rl, hi'⟩, ?_⟩
    simp [queued_eq hi'.shape, hc', hq, hsent]
  | dequeue size =>
    obtain ⟨r, bs, hr, -, hout, -, -, fl', wl', rl', hi', hc'⟩ :=
      deqLoop_spec size [] hinv (show _ ≤ 2 * size + 1 by split <;> omega)
    refine ⟨_, by simp only [sect, hr]; rfl, ⟨fl', wl', rl', hi'⟩, ?_⟩
    simp [queued_eq hi'.shape, hq, hc', hout]

theorem sects_spec (xs : List Section) {h : Hist} (hi : HInv h) :
    ∃ h', xs.foldlM sect h = some h' ∧ HInv h' := by
  induction xs generalizing h with
  | nil => exact ⟨h, rfl, hi⟩
  | cons x xs ih =>
    obtain ⟨h1, hx, hi1⟩ := sect_spec hi x
    obtain ⟨h', hxs, hi'⟩ := ih hi1
    exact ⟨h', by rw [foldlM_cons, hx]; exact hxs, hi'⟩

/-- **FIFO with waiting callers.** Whatever the order of the sections of all calls, no byte is lost,
doubled or overtaken. -/
theorem sections_fifo (pages ofs : Nat) (next : Nat → Option Nat) (size : Nat → Nat)
    (buf : Nat → Buf) (xs : List Section) :
    ∃ h, xs.foldlM sect ⟨reserve pages ofs next size buf, [], []⟩ = some h ∧
      h.accepted = h.dequeued ++ queued h.pipe ∧ ∀ p : Fin pages, ∃! pl, At h.pipe p pl := by
  have hi := reserve_inv pages ofs next size buf
  obtain ⟨h, hc, ⟨_, _, _, hinv⟩, hq⟩ :=
    sects_spec xs (h := ⟨_, [], []⟩) ⟨⟨_, _, _, hi⟩, (queued_eq hi.shape).symm⟩
  exact ⟨h, hc, hq, fun p => place_unique hinv.shape p⟩

end Dgos.L5.Pipe

import Dgos.L1Data.Printk

/-!
# Formatting into a buffer (kernel/lib/printk.cc)

`vsnprintf` passes the formatter a callback that fills a buffer up to a limit and counts everything.
The formatter does the same whatever the callback makes of the pieces (`Simulates.loop`), so that the
buffer can be compared with the complete output, which a callback without a limit collects.

Results:
* `formatter_length`: the number that the formatter returns is the length of the complete output.
* `vsnprintf_right`: the result and the buffer, for every limit.
* `error_not_terminated`: formats for which it is not so.
-/
namespace Dgos.L1.Printk

open List

/-- mirrors printk.cc:927-931 -/
structure VsnprintfContext where
  buf : Buf
  limit : Nat
  level : Nat

/-- mirrors printk.cc:949-955 -/
def putChars (ctx : VsnprintfContext) : List UInt8 → VsnprintfContext
  | [] => ctx
  | b :: s =>
    if ctx.limit ≠ 0 ∧ ctx.limit ≤ ctx.level then ctx
    else if ctx.limit ≠ 0 then
      putChars { ctx with buf := poke ctx.buf ctx.level [b], level := ctx.level + 1 } s
    else putChars ctx s

/-- mirrors printk.cc:933-958 -/
def vsnprintfEmitChars (p : Piece) (ctx : VsnprintfContext) : Int × VsnprintfContext :=
  (toInt p.bytes.length, putChars ctx p.bytes)

/-- The result, the buffer and what was stored through pointers. The buffer is where the code writes
from `buf` on.
mirrors printk.cc:969-987 -/
def vsnprintf (m : Mem) (buf : Buf) (limit : Nat) (format : List UInt8) (args : List Nat) :
    Except Err (Int × Buf × List (Nat × Int)) := do
  let (charsNeeded, st) ← formatter m vsnprintfEmitChars format args ⟨buf, limit, 0⟩
  let needed := (charsNeeded % 2 ^ 64).toNat
  let buf := if needed < limit ∧ limit ≠ 0 then poke st.context.buf needed [0]
    else if limit ≠ 0 then poke st.context.buf (limit - 1) [0]
    else st.context.buf
  return (toInt charsNeeded, buf, st.stored)

/-! ## Two callbacks -/

section Simulation

variable {σ τ : Type}

/-- A relation between the states of two runs with different callbacks. -/
structure Simulates (e : Piece → σ → Int × σ) (e' : Piece → τ → Int × τ)
    (R : St σ → St τ → Prop) : Prop where
  emit : ∀ s t p, R s t → R (s.emit e p) (t.emit e' p)
  store : ∀ s t p, R s t → R (s.store p) (t.store p)
  count : ∀ s t, R s t → s.charsWritten = t.charsWritten

variable {e : Piece → σ → Int × σ} {e' : Piece → τ → Int × τ} {R : St σ → St τ → Prop} {s : St σ}
  {t : St τ}

theorem Simulates.emitEach (h : Simulates e e' R) (ps : List Piece)
    (hst : R s t) : R (s.emitEach e ps) (t.emitEach e' ps) := by
  induction ps generalizing s t with
  | nil => exact hst
  | cons p ps ih => exact ih (h.emit s t p hst)

/-- The callback has no say in what is emitted, so the runs stay related. -/
theorem Simulates.loop (h : Simulates e e' R) (m : Mem) (fuel : Nat) (fp : List UInt8)
    (args : List Nat) (hst : R s t) :
    (∃ x, loop m e fuel fp args s = .error x ∧ loop m e' fuel fp args t = .error x) ∨
      ∃ n s' t', loop m e fuel fp args s = .ok (n, s') ∧ loop m e' fuel fp args t = .ok (n, t') ∧
        R s' t' := by
  induction fuel generalizing fp args s t with
  | zero => exact .inl ⟨.fuel, rfl, rfl⟩
  | succ fuel ih =>
    have hcount := h.count s t hst
    rw [Printk.loop, Printk.loop]
    by_cases hend : fp.headD 0 = 0
    · rw [if_pos hend, if_pos hend]
      exact .inr ⟨_, s, t, rfl, by rw [hcount], hst⟩
    rw [if_neg hend, if_neg hend, turn, turn]
    cases hact : action m fp args with
    | error x => exact .inl ⟨x, rfl, rfl⟩
    | ok a =>
      cases a with
      | none => exact .inr ⟨_, s, t, rfl, by rw [hcount]; rfl, hst⟩
      | some a => exact ih a.fp a.args (h.emitEach a.pieces (h.store s t a.store hst))

end Simulation

/-! ## The complete output -/

/-- The callback counts what it takes, as long as an `int` can. -/
theorem count_simulates : Simulates collect collect fun s t => s = t ∧
    (s.context.length < 2 ^ 31 → s.charsWritten = s.context.length) where
  emit := by
    rintro s t p ⟨rfl, hcount⟩
    refine ⟨rfl, fun hlt => ?_⟩
    have hcontext : (s.emit collect p).context = s.context ++ p.bytes := rfl
    have hint : (s.emit collect p).charsWritten = s.charsWritten + toInt p.bytes.length := by
      simp [St.emit, collect]
    rw [hcontext, length_append] at hlt ⊢
    rw [hint, hcount (by omega), toInt_of_lt (by omega) (by omega), Int.natCast_add]
  store := by
    rintro s t p ⟨rfl, hcount⟩
    cases p <;> exact ⟨rfl, hcount⟩
  count := by
    rintro s t ⟨rfl, -⟩
    rfl

variable {args : List Nat} {m : Mem} {n : Int}

theorem loop_result {σ : Type} {e : Piece → σ → Int × σ} {fuel : Nat} {fp : List UInt8}
    {st st' : St σ} (h : loop m e fuel fp args st = .ok (n, st')) :
    n = st'.charsWritten ∨ n = -st'.charsWritten - 1 := by
  induction fuel generalizing fp args st with
  | zero => cases h
  | succ fuel ih =>
    rw [loop] at h
    split at h
    · cases h
      exact .inl rfl
    obtain ⟨next, -, h⟩ := bind_eq_ok h
    cases next with
    | go fp args st => exact ih h
    | ret st =>
      cases h
      exact .inr rfl

theorem formatter_length {format : List UInt8}
    {st : St (List UInt8)} (h : formatter m collect format args [] = .ok (n, st)) (hn : 0 ≤ n)
    (hlt : st.context.length < 2 ^ 31) : n = st.context.length := by
  rw [formatter] at h
  rcases count_simulates.loop (s := ⟨0, [], []⟩) m (format.length + 1) format args
    ⟨rfl, fun _ => rfl⟩ with ⟨x, hx, -⟩ | ⟨n', s, t, hs, -, -, hcount⟩
  · rw [hx] at h
    cases h
  · rw [hs] at h
    cases h
    rcases loop_result hs with hres | hres
    · rw [hres, hcount hlt]
    · omega

/-! ## The buffer -/

section Buffer

variable {buf : Buf} {limit : Nat}

/-- The buffer after some output. -/
def filled (buf : Buf) (limit : Nat) (out : List UInt8) : VsnprintfContext :=
  ⟨if limit = 0 then buf else poke buf 0 (out.take limit), limit,
    if limit = 0 then 0 else min out.length limit⟩

theorem putChars_zero (hlimit : limit = 0) (ctx : VsnprintfContext) (h : ctx.limit = limit)
    (bs : List UInt8) : putChars ctx bs = ctx := by
  induction bs with
  | nil => rfl
  | cons b bs ih => rw [putChars, if_neg (by omega), if_neg (by omega), ih]

theorem filled_eq (hlimit : limit ≠ 0) (out : List UInt8) :
    filled buf limit out = ⟨poke buf 0 (out.take limit), limit, min out.length limit⟩ := by
  simp [filled, hlimit]

theorem putChars_filled (out bs : List UInt8) :
    putChars (filled buf limit out) bs = filled buf limit (out ++ bs) := by
  by_cases hlimit : limit = 0
  · rw [putChars_zero hlimit _ rfl]
    simp [filled, if_pos hlimit]
  induction bs generalizing out with
  | nil => rw [append_nil]; rfl
  | cons b bs ih =>
    rw [filled_eq hlimit, putChars]
    by_cases hfull : limit ≤ out.length
    · rw [if_pos ⟨hlimit, le_min hfull le_rfl⟩, filled_eq hlimit, take_append_of_le_length hfull,
        length_append]
      congr 1
      omega
    · have hlevel : min out.length limit = out.length := by omega
      have hstep : filled buf limit (out ++ [b]) =
          ⟨poke (poke buf 0 (out.take limit)) out.length [b], limit, out.length + 1⟩ := by
        rw [filled_eq hlimit, take_of_length_le (by simp; omega), take_of_length_le (by omega),
          ← poke_poke_append, Nat.zero_add, length_append, length_singleton]
        congr 1
        omega
      simp only [hlevel]
      rw [if_neg fun h => hfull h.2, if_pos hlimit, ← hstep, ih, append_assoc, singleton_append]

variable (buf limit) in
/-- The buffer holds the beginning of the complete output. -/
theorem fill_simulates : Simulates vsnprintfEmitChars collect fun s t =>
    s = { t with context := filled buf limit t.context } where
  emit := by
    rintro s t p rfl
    simp [St.emit, vsnprintfEmitChars, collect, putChars_filled]
  store := by
    rintro s t p rfl
    cases p <;> rfl
  count := by
    rintro s t rfl
    rfl

end Buffer

/-- What is expected of `vsnprintf`: the length of the output for every limit, and as much of it as
there is room for. -/
def VsnprintfRight (m : Mem) (format : List UInt8) (args : List Nat) : Prop :=
  ∃ (out : List UInt8) (stored : List (Nat × Int)), ∀ buf limit, vsnprintf m buf limit format args =
      .ok (out.length, if limit = 0 then buf else poke buf 0 (out.take (limit - 1) ++ [0]), stored)

/-- The terminator takes the place of the last byte. -/
theorem poke_last (buf : Buf) {l : List UInt8} {x y : UInt8} :
    poke (poke buf 0 (l ++ [x])) l.length [y] = poke buf 0 (l ++ [y]) := by
  rw [← poke_poke_append, ← poke_poke_append, Nat.zero_add]
  funext i
  by_cases hi : i < l.length ∨ l.length + [y].length ≤ i
  · have hx : i < l.length ∨ l.length + [x].length ≤ i := hi
    rw [poke_outside hi, poke_outside hx, poke_outside hi]
  · obtain rfl : i = l.length + 0 := by
      rw [length_singleton] at hi
      omega
    rw [poke_inside Nat.zero_lt_one, poke_inside Nat.zero_lt_one]

theorem poke_terminator (buf : Buf) {limit : Nat} (hlimit : limit ≠ 0) (out : List UInt8) :
    (if out.length < limit ∧ limit ≠ 0 then poke (filled buf limit out).buf out.length [0]
      else if limit ≠ 0 then poke (filled buf limit out).buf (limit - 1) [0]
      else (filled buf limit out).buf) = poke buf 0 (out.take (limit - 1) ++ [0]) := by
  have hbuf : (filled buf limit out).buf = poke buf 0 (out.take limit) := if_neg hlimit
  rw [hbuf]
  by_cases hlt : out.length < limit
  · rw [if_pos ⟨hlt, hlimit⟩, take_of_length_le (by omega), take_of_length_le (by omega),
      ← poke_poke_append, Nat.zero_add]
  have hsplit : out.take limit = out.take (limit - 1) ++ [out.getD (limit - 1) 0] := by
    obtain ⟨k, rfl⟩ : ∃ k, limit = k + 1 := ⟨limit - 1, by omega⟩
    rw [Nat.add_sub_cancel, take_succ_eq_append_getElem (by omega), getD_eq_getElem _ _ (by omega)]
  have hlen : (out.take (limit - 1)).length = limit - 1 := by
    rw [length_take]
    omega
  have hlast := poke_last buf (l := out.take (limit - 1)) (x := out.getD (limit - 1) 0) (y := 0)
  rw [hlen] at hlast
  rw [if_neg (fun h => hlt h.1), if_pos hlimit, hsplit, hlast]

/-- **Formatting into a buffer.** Where the formatter gets to the end of the format and the output
has a length that an `int` can hold, this length is returned for every limit, and the buffer gets as
much of the output as there is room for, and a terminator. -/
theorem vsnprintf_right (m : Mem) (format : List UInt8) (args : List Nat) (n : Int)
    (st : St (List UInt8)) (h : formatter m collect format args [] = .ok (n, st)) (hn : 0 ≤ n)
    (hlt : st.context.length < 2 ^ 31) : VsnprintfRight m format args := by
  have hlen := formatter_length h hn hlt
  refine ⟨st.context, st.stored, fun buf limit => ?_⟩
  rw [formatter] at h
  rcases (fill_simulates buf limit).loop (s := ⟨0, ⟨buf, limit, 0⟩, []⟩) (t := ⟨0, [], []⟩) m
    (format.length + 1) format args (by simp [filled]) with ⟨x, -, hx⟩ | ⟨n', s, t, hs, ht, hst⟩
  · rw [hx] at h
    cases h
  rw [ht] at h
  cases h
  have hneeded : ((st.context.length : Int) % 2 ^ 64).toNat = st.context.length := by omega
  rw [vsnprintf, formatter, ok_bind hs, hst, hlen]
  simp only [hneeded, toInt_of_lt (by omega : -2 ^ 31 ≤ (st.context.length : Int)) (by omega)]
  by_cases hlimit : limit = 0
  · have hbuf : (filled buf limit st.context).buf = buf := if_pos hlimit
    rw [if_neg (fun h => h.2 hlimit), if_neg (fun h => h hlimit), if_pos hlimit, hbuf]
    rfl
  · rw [poke_terminator buf hlimit, if_neg hlimit]
    rfl

def noMem : Mem := ⟨fun _ => [], fun _ => []⟩

/-- `%c%d` with `A` and 42 -/
theorem vsnprintf_right_sample : VsnprintfRight noMem [0x25, 0x63, 0x25, 0x64] [0x41, 42] :=
  vsnprintf_right noMem [0x25, 0x63, 0x25, 0x64] [0x41, 42] 3 ⟨3, [0x41, 0x34, 0x32], []⟩
    rfl (by decide) (by decide)

/-- There is no result for `%Ld`: -1 is returned, and all of the buffer but its last byte is left as
it was. A `%` at the end of a format takes the code past the terminator. -/
theorem error_not_terminated :
    (vsnprintf noMem (fun _ => 0xEE) 4 [0x25, 0x4C, 0x64] [42]).map (fun r => (r.1, peek r.2.1 0 4)) =
        .ok (-1, [0xEE, 0xEE, 0xEE, 0]) ∧
      ¬ VsnprintfRight noMem [0x25, 0x4C, 0x64] [42] ∧ ¬ VsnprintfRight noMem [0x25] [] := by
  refine ⟨by decide +kernel, ?_, ?_⟩
  · rintro ⟨out, stored, h⟩
    have hret : (vsnprintf noMem (fun _ => 0) 0 [0x25, 0x4C, 0x64] [42]).map Prod.fst = .ok (-1) := by
      decide +kernel
    rw [h] at hret
    have := Except.ok.inj hret
    omega
  · rintro ⟨out, stored, h⟩
    have hret : (vsnprintf noMem (fun _ => 0) 0 [0x25] []).map Prod.fst = .error .outOfBounds := by
      decide +kernel
    rw [h] at hret
    cases hret

end Dgos.L1.Printk

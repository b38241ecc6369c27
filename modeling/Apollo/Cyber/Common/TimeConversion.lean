import Mathlib.Algebra.Order.Ring.Nat

/-! The conversion between UNIX and GPS time, which finds the leap seconds in a table. -/
namespace Apollo.Cyber.Common
open List Option Int64 Int

/-- When a leap second was inserted, with the number of leap seconds from then on. The latest comes first. -/
def leapSeconds : List (Int32 × Int32) :=
  [(1483228800, 18),(1435708800, 17),(1341100800, 16),(1230768000, 15),(1136073600, 14)]

def unixGpsDiff : Int32 := 315964800

def oneBillion : Int64 := 1000000000

def unixToGpsSeconds (unixSeconds : Int64) : Int64 :=
  match leapSeconds.find? fun entry => entry.1.toInt64 ≤ unixSeconds with
  | some entry => unixSeconds - (unixGpsDiff - entry.2).toInt64
  | none => 0

/-- What `GpsToUnixSeconds` tries for an entry. The cast is to `int32_t`. -/
def gpsToUnixEntry (gpsSeconds : Int64) (entry : Int32 × Int32) : Option Int64 :=
  let result := gpsSeconds+(unixGpsDiff - entry.2).toInt64
  if entry.1 ≤ result.toInt32 then some result else none

def gpsToUnixSeconds (gpsSeconds : Int64) : Int64 := (leapSeconds.findSome? (gpsToUnixEntry gpsSeconds)).getD 0

/-- A conversion of seconds for ticks, which come to `unit` in a second. -/
def convertTicks (convert : Int64 → Int64) (unit ticks : Int64) : Int64 := convert (ticks/unit)*unit+ticks%unit

def unixToGpsNanoseconds : Int64 → Int64 := convertTicks unixToGpsSeconds oneBillion

def gpsToUnixNanoseconds : Int64 → Int64 := convertTicks gpsToUnixSeconds oneBillion

/-- The leap seconds become more, so that they fall along the table. -/
theorem leapSeconds_pairwise : leapSeconds.Pairwise fun later earlier => earlier.2.toInt < later.2.toInt := by decide

theorem leapSeconds_bounds : ∀ entry ∈ leapSeconds, 1136073600 ≤ entry.1.toInt ∧ 0 ≤ entry.2.toInt ∧
    entry.2.toInt ≤ 18 ∧ (unixGpsDiff - entry.2).toInt64.toInt = 315964800 - entry.2.toInt := by
  have hall : leapSeconds.all (fun entry => decide (1136073600 ≤ entry.1.toInt) && decide (0 ≤ entry.2.toInt) &&
      decide (entry.2.toInt ≤ 18) &&
      decide ((unixGpsDiff - entry.2).toInt64.toInt = 315964800 - entry.2.toInt)) = true := by decide
  intro entry hmem
  simpa [and_assoc] using all_eq_true.mp hall entry hmem

/-- The entry that `UnixToGpsSeconds` uses, with the later ones before it. -/
structure Current (s : Int64) (entry : Int32 × Int32) (later earlier : List (Int32 × Int32)) : Prop where
  table : leapSeconds = later ++ entry::earlier
  reached : entry.1.toInt ≤ s.toInt
  notReached : ∀ e ∈ later, s.toInt < e.1.toInt

variable {s : Int64} {entry : Int32 × Int32} {later earlier : List (Int32 × Int32)}

theorem exists_current (h : 1136073600 ≤ s.toInt) : ∃ entry later earlier, Current s entry later earlier ∧
    unixToGpsSeconds s = s - (unixGpsDiff - entry.2).toInt64 := by
  have hsome : (leapSeconds.find? fun entry => entry.1.toInt64 ≤ s).isSome := by
    apply find?_isSome.mpr
    refine ⟨(1136073600, 14),by decide,?_⟩
    exact decide_eq_true (le_iff_toInt_le.mpr h)
  obtain ⟨entry,hfind⟩ := isSome_iff_exists.mp hsome
  obtain ⟨hreached,later,earlier,htable,hnot⟩ := find?_eq_some_iff_append.mp hfind
  refine ⟨entry,later,earlier,⟨htable,?_,?_⟩,?_⟩
  · rw [← Int32.toInt_toInt64]
    exact le_iff_toInt_le.mp (of_decide_eq_true hreached)
  · intro e he
    have hlt := hnot e he
    rw [Bool.not_eq_true',decide_eq_false_iff_not,le_iff_toInt_le,Int32.toInt_toInt64] at hlt
    omega
  · rw [unixToGpsSeconds,hfind]

namespace Current
variable (h : Current s entry later earlier)
include h

theorem mem : entry ∈ leapSeconds := by
  rw [h.table]
  exact mem_append_right _ mem_cons_self

variable {e entry' : Int32 × Int32}

theorem mem_later (he : e ∈ later) : e ∈ leapSeconds ∧ entry.2.toInt < e.2.toInt := by
  have hpairwise := leapSeconds_pairwise
  rw [h.table,pairwise_append] at hpairwise
  refine ⟨?_,hpairwise.2.2 e he entry mem_cons_self⟩
  rw [h.table]
  exact mem_append_left _ he

theorem mem_earlier (he : e ∈ earlier) : e ∈ leapSeconds ∧ e.2.toInt < entry.2.toInt := by
  have hpairwise := leapSeconds_pairwise
  rw [h.table,pairwise_append,pairwise_cons] at hpairwise
  refine ⟨?_,hpairwise.2.1.1 e he⟩
  rw [h.table]
  exact mem_append_right _ (mem_cons_of_mem _ he)

theorem leap_le {s' : Int64} {later' earlier' : List (Int32 × Int32)} (h' : Current s' entry' later' earlier')
    (hle : s.toInt ≤ s'.toInt) : entry.2.toInt ≤ entry'.2.toInt := by
  have hmem := h'.mem
  rw [h.table,mem_append,mem_cons] at hmem
  obtain hlater | rfl | hearlier := hmem
  · exact le_of_lt (h.mem_later hlater).2
  · exact le_refl _
  · -- an entry after the current one is not used later, since the current one is reached
    have hbefore := h.mem
    rw [h'.table,mem_append,mem_cons] at hbefore
    have hlt := (h.mem_earlier hearlier).2
    obtain hnot | rfl | hafter := hbefore
    · have hreached := h'.notReached entry hnot
      have := h.reached
      omega
    · exact le_refl _
    · exact absurd (h'.mem_earlier hafter).2 (by omega)

theorem eq_head (hlarge : 2147483648 ≤ s.toInt) : entry = (1483228800, 18) := by
  have hnil : later = [] := by
    apply eq_nil_iff_forall_not_mem.mpr
    intro e he
    have hnot := h.notReached e he
    have hmax := e.1.toInt_lt
    omega
  have htable := h.table
  rw [hnil] at htable
  exact (List.cons.inj htable).1.symm

end Current

variable {n q m r : Int}

theorem bmod_eq (h : -9223372036854775808 ≤ n) (h' : n < 9223372036854775808) : n.bmod (2^64) = n :=
  bmod_eq_of_le h h'

theorem toInt_unixToGpsSeconds (h : Current s entry later earlier) :
    (s - (unixGpsDiff - entry.2).toInt64).toInt = s.toInt - 315964800+entry.2.toInt := by
  obtain ⟨_,_,_,hdiff⟩ := leapSeconds_bounds entry h.mem
  have hreached := h.reached
  have hmax := s.toInt_lt
  rw [toInt_sub,hdiff,bmod_eq (by omega) (by omega)]
  omega

section Entry
variable {g : Int64} {e : Int32 × Int32} (he : e ∈ leapSeconds) (hg : 0 ≤ g.toInt) (hg' : g.toInt ≤ 10000000000)
include he hg hg'

theorem gpsToUnixEntry_eq : ∃ result : Int64, result.toInt = g.toInt+315964800 - e.2.toInt ∧
    gpsToUnixEntry g e = if e.1.toInt ≤ result.toInt.bmod (2^32) then some result else none := by
  obtain ⟨-,_,_,hdiff⟩ := leapSeconds_bounds e he
  refine ⟨g+(unixGpsDiff - e.2).toInt64,?_,?_⟩
  · rw [toInt_add,hdiff,bmod_eq (by omega) (by omega)]
    omega
  · rw [gpsToUnixEntry,← toInt_toInt32]
    simp only [Int32.le_iff_toInt_le]

end Entry

/-- The seconds come back until the cast to 32 bits makes them negative, and again where the last leap second is
before the time that the cast gives. -/
theorem gpsToUnixSeconds_unixToGpsSeconds (h : 1136073600 ≤ s.toInt) (h' : s.toInt ≤ 9223372036) :
    ∃ r, gpsToUnixSeconds (unixToGpsSeconds s) = r ∧ (r.toInt = 0 ∨ s.toInt ≤ r.toInt ∧ r.toInt ≤ s.toInt+18) ∧
      (r.toInt = s.toInt ↔ s.toInt < 2147483648 ∨ 1483228800 ≤ s.toInt.bmod (2^32)) := by
  obtain ⟨entry,later,earlier,hcurrent,hgps⟩ := exists_current h
  have htoInt := toInt_unixToGpsSeconds hcurrent
  rw [← hgps] at htoInt
  obtain ⟨_,_,_,-⟩ := leapSeconds_bounds entry hcurrent.mem
  have hreached := hcurrent.reached
  obtain ⟨result,_,htry⟩ := gpsToUnixEntry_eq (g := unixToGpsSeconds s) hcurrent.mem (by omega) (by omega)
  have hs : result.toInt = s.toInt := by omega
  rw [hs] at htry
  -- a later entry is tried with fewer seconds, and was not reached with all of them
  have hlater : later.findSome? (gpsToUnixEntry (unixToGpsSeconds s)) = none := by
    apply findSome?_eq_none_iff.mpr
    intro e he
    obtain ⟨hmem,hleap⟩ := hcurrent.mem_later he
    obtain ⟨_,henonneg,hele,-⟩ := leapSeconds_bounds e hmem
    have hnot := hcurrent.notReached e he
    have hemax := e.1.toInt_lt
    obtain ⟨r,hr,hrtry⟩ := gpsToUnixEntry_eq (g := unixToGpsSeconds s) hmem (by omega) (by omega)
    rw [hrtry,bmod_eq_of_le (by omega) (by omega),if_neg (by omega)]
  have hfind : gpsToUnixSeconds (unixToGpsSeconds s) = ((gpsToUnixEntry (unixToGpsSeconds s) entry).or
        (earlier.findSome? (gpsToUnixEntry (unixToGpsSeconds s)))).getD 0 := by
    rw [gpsToUnixSeconds,hcurrent.table,findSome?_append,hlater,none_or,findSome?_cons]
    cases gpsToUnixEntry (unixToGpsSeconds s) entry <;> rfl
  by_cases hpass : entry.1.toInt ≤ s.toInt.bmod (2^32)
  · rw [htry,if_pos hpass] at hfind
    refine ⟨result,hfind,.inr ⟨by omega,by omega⟩,iff_of_true hs ?_⟩
    by_cases hsmall : s.toInt < 2147483648
    · exact .inl hsmall
    · obtain rfl := hcurrent.eq_head (by omega)
      exact .inr hpass
  · have hlarge : 2147483648 ≤ s.toInt := by
      by_cases hsmall : s.toInt < 2147483648
      · rw [bmod_eq_of_le (by omega) (by omega)] at hpass
        exact absurd hreached hpass
      · omega
    have hfail : ¬(s.toInt < 2147483648 ∨ 1483228800 ≤ s.toInt.bmod (2^32)) := by
      obtain rfl := hcurrent.eq_head hlarge
      rintro (hsmall | hpass')
      · omega
      · exact hpass hpass'
    rw [htry,if_neg hpass,none_or] at hfind
    refine ⟨_,hfind,?_⟩
    cases hrest : earlier.findSome? (gpsToUnixEntry (unixToGpsSeconds s)) with
    | none =>
      refine ⟨.inl rfl,iff_of_false ?_ hfail⟩
      change (0 : Int) ≠ s.toInt
      omega
    | some =>
      -- an earlier entry has fewer leap seconds, which are added to the time
      obtain ⟨e,he,hr⟩ := exists_of_findSome?_eq_some hrest
      obtain ⟨hmem,hleap⟩ := hcurrent.mem_earlier he
      obtain ⟨-,henonneg,hele,-⟩ := leapSeconds_bounds e hmem
      obtain ⟨_,_,hrtry⟩ := gpsToUnixEntry_eq (g := unixToGpsSeconds s) hmem (by omega) (by omega)
      rw [hrtry] at hr
      split at hr
      · cases hr
        refine ⟨.inr ⟨?_,?_⟩,iff_of_false ?_ hfail⟩ <;> simp only [getD_some] <;> omega
      · exact absurd hr (by simp)

section Ticks
variable {t : Int64} (ht : 0 ≤ t.toInt)
include ht

theorem toInt_div_oneBillion : (t/oneBillion).toInt = t.toInt/1000000000 := by
  rw [toInt_div_of_ne_right _ _ (by decide)]
  exact tdiv_eq_ediv_of_nonneg ht

theorem toInt_convertTicks (convert : Int64 → Int64) : (convertTicks convert oneBillion t).toInt =
    ((convert (t/oneBillion)).toInt*1000000000+t.toInt%1000000000).bmod (2^64) := by
  have hmod : (t%oneBillion).toInt = t.toInt%1000000000 := by
    rw [toInt_mod]
    exact tmod_eq_emod_of_nonneg ht
  rw [convertTicks,toInt_add,toInt_mul,hmod,bmod_add_bmod]
  rfl

theorem convertTicks_convertTicks (convert convert' : Int64 → Int64) (h : 0 ≤ (convert (t/oneBillion)).toInt)
    (h' : (convert (t/oneBillion)).toInt ≤ 9223372035) :
    (convertTicks convert oneBillion t).toInt = (convert (t/oneBillion)).toInt*1000000000+t.toInt%1000000000 ∧
    (convertTicks convert' oneBillion (convertTicks convert oneBillion t)).toInt =
      ((convert' (convert (t/oneBillion))).toInt*1000000000+t.toInt%1000000000).bmod (2^64) := by
  have htoInt : (convertTicks convert oneBillion t).toInt =
      (convert (t/oneBillion)).toInt*1000000000+t.toInt%1000000000 := by
    rw [toInt_convertTicks ht,bmod_eq (by omega) (by omega)]
  have hnonneg : 0 ≤ (convertTicks convert oneBillion t).toInt := by omega
  have hseconds : convertTicks convert oneBillion t/oneBillion = convert (t/oneBillion) := by
    apply toInt_inj.mp
    rw [toInt_div_oneBillion hnonneg]
    omega
  refine ⟨htoInt,?_⟩
  rw [toInt_convertTicks hnonneg,hseconds,htoInt]
  congr 2
  omega

end Ticks

theorem window_iff (h : 1136073600 ≤ n) (h' : n ≤ 9223372036) : (n < 2147483648 ∨ 1483228800 ≤ n.bmod (2^32)) ↔
      n < 2147483648 ∨ 4294967296+1483228800 ≤ n ∧ n < 4294967296+2147483648 := by
  have hbmod : n.bmod (2^32) = if n%4294967296 < 2147483648 then n%4294967296
      else n%4294967296 - 4294967296 := rfl
  rw [hbmod]
  split <;> omega

theorem ticks_eq_iff (hq : 0 < q) (hm : 0 ≤ m) (hm' : m < 1000000000)
    (hfit : q*1000000000+m < 9223372036854775808) (hr : r = 0 ∨ q ≤ r ∧ r ≤ q+18) :
    (r*1000000000+m).bmod (2^64) = q*1000000000+m ↔ r = q := by
  by_cases hfits : r*1000000000+m < 9223372036854775808
  · rw [bmod_eq (by omega) hfits]
    omega
  · have hwrap : (r*1000000000+m).bmod (2^64) = r*1000000000+m - 18446744073709551616 := by
      rw [← sub_bmod_right]
      exact bmod_eq (by omega) (by omega)
    rw [hwrap]
    omega

theorem toInt_unixToGpsNanoseconds {t : Int64} (h : 1136073600000000000 ≤ t.toInt) :
    ∃ entry later earlier, Current (t/oneBillion) entry later earlier ∧
      (unixToGpsSeconds (t/oneBillion)).toInt = t.toInt/1000000000 - 315964800+entry.2.toInt ∧
      (unixToGpsNanoseconds t).toInt = t.toInt+(entry.2.toInt - 315964800)*1000000000 := by
  have ht : 0 ≤ t.toInt := by omega
  have hmax := t.toInt_lt
  have hseconds := toInt_div_oneBillion ht
  obtain ⟨entry,later,earlier,hcurrent,hgps⟩ := exists_current (s := t/oneBillion) (by omega)
  obtain ⟨-,_,_,-⟩ := leapSeconds_bounds entry hcurrent.mem
  have htoInt := toInt_unixToGpsSeconds hcurrent
  rw [← hgps,hseconds] at htoInt
  refine ⟨entry,later,earlier,hcurrent,htoInt,?_⟩
  have hticks := (convertTicks_convertTicks ht unixToGpsSeconds id (by omega) (by omega)).1
  rw [unixToGpsNanoseconds,hticks,htoInt]
  omega

/-- A UNIX time comes back before 2^31 seconds, and where its seconds modulo 2^32 are between the last leap second and
2^31, and the GPS time grows with the UNIX time. -/
theorem unixToGpsNanoseconds_roundTrip (t : Int64) (h : 1136073600000000000 ≤ t.toInt) :
    (gpsToUnixNanoseconds (unixToGpsNanoseconds t) = t ↔ t.toInt < 2147483648*1000000000 ∨
        (4294967296+1483228800)*1000000000 ≤ t.toInt ∧ t.toInt < (4294967296+2147483648)*1000000000) ∧
    ∀ u : Int64, t < u → unixToGpsNanoseconds t < unixToGpsNanoseconds u := by
  have ht : 0 ≤ t.toInt := by omega
  have hmax := t.toInt_lt
  have hseconds := toInt_div_oneBillion ht
  obtain ⟨entry,_,_,hcurrent,_,_⟩ := toInt_unixToGpsNanoseconds h
  obtain ⟨-,_,_,-⟩ := leapSeconds_bounds entry hcurrent.mem
  constructor
  · obtain ⟨r,hr,hcases,hiff⟩ := gpsToUnixSeconds_unixToGpsSeconds (s := t/oneBillion) (by omega) (by omega)
    have hback := (convertTicks_convertTicks ht unixToGpsSeconds gpsToUnixSeconds (by omega) (by omega)).2
    rw [hr] at hback
    have hround : gpsToUnixNanoseconds (unixToGpsNanoseconds t) = t ↔ r.toInt = (t/oneBillion).toInt := by
      have hsplit := ediv_mul_add_emod t.toInt 1000000000
      have hticks := ticks_eq_iff (q := t.toInt/1000000000) (m := t.toInt%1000000000) (r := r.toInt) (by omega)
        (by omega) (by omega) (by omega) (by rwa [hseconds] at hcases)
      rw [hsplit] at hticks
      rw [← toInt_inj,gpsToUnixNanoseconds,unixToGpsNanoseconds,hback,hseconds]
      exact hticks
    rw [hround,hiff,hseconds,window_iff (by omega) (by omega)]
    omega
  · intro u hlt
    rw [lt_iff_toInt_lt] at hlt ⊢
    have hu : 0 ≤ u.toInt := by omega
    have huseconds := toInt_div_oneBillion hu
    obtain ⟨_,_,_,hcurrent',-,_⟩ := toInt_unixToGpsNanoseconds (t := u) (by omega)
    have hleap := hcurrent.leap_le hcurrent' (by omega)
    omega

/-- The last leap second of the table, with the nanosecond before it. -/
theorem unixToGpsNanoseconds_roundTrip_2017 :
    gpsToUnixNanoseconds (unixToGpsNanoseconds 1483228799999999999) = 1483228799999999999 ∧
      unixToGpsNanoseconds 1483228799999999999 < unixToGpsNanoseconds 1483228800000000000 :=
  have h := unixToGpsNanoseconds_roundTrip 1483228799999999999 (by decide)
  ⟨h.1.mpr (.inl (by decide)),h.2 _ (by decide)⟩

/-- The second that does not fit into 32 bits comes back as zero. -/
theorem gpsToUnixNanoseconds_2038 : gpsToUnixNanoseconds (unixToGpsNanoseconds 2147483648000000000) = 0 := by decide

end Apollo.Cyber.Common

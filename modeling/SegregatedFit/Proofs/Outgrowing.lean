import Mathlib
import SegregatedFit.Proofs.Moving
import SegregatedFit.Proofs.Sizes

/-!
Requests that outgrow a block. A live block serves every request for no more than may be used of it, and
stays where it is. For any larger one it is too small, and the block that serves it instead is larger.
-/
namespace SegregatedFit

open Row

theorem Sketch.Tidy.serves_iff {H : Type} {k : Sketch H} {request x : Nat} {t : Tag} (hk : k.Tidy)
    (hx : (x, t) ∈ k.blocks) :
    (∃ size, blockSize? request = some size ∧ size ≤ t.size) ↔ request ≤ t.size - headerSize := by
  obtain ⟨-, -, hmin, hmod, -⟩ := hk.of_block hx
  exact blockSize?_le_iff hmin hmod (hk.size_lt hx)

namespace Session

/-- The block size for a request is the least one in whole alignments that has room for it and a header,
if that is a word; it is no less for a larger request, and no more than a given size just if the request
fits there behind a header. So a live block stays where it is for every request up to its usable size. For
any larger one it is too small, and what is handed out instead is a larger block. -/
theorem reachable_outgrown (H : Type) [Host H] [LawfulHost H] :
    (∀ n, blockSize? n = (maskedSize n).toOption) ∧
    (∀ n, blockSize? n = none ↔ wordLimit - (headerSize + alignment) < n) ∧
    (∀ n size, blockSize? n = some size →
      IsLeast {m | m % alignment = 0 ∧ n + headerSize ≤ m} size ∧
        alignment ≤ size ∧ size < n + (headerSize + alignment) ∧ size < wordLimit) ∧
    (∀ m n size, m ≤ n → blockSize? n = some size → ∃ a, blockSize? m = some a ∧ a ≤ size) ∧
    (∀ n size, 0 < size → size % alignment = 0 → size < wordLimit →
      ((∃ a, blockSize? n = some a ∧ a ≤ size) ↔ n ≤ size - headerSize)) ∧
    ∀ s : Session H, s.Reachable → ∀ ptr ∈ s.live.pointers, ∃ held usable,
      s.heap.blockSize ptr = .ok held ∧ s.heap.usableSize ptr = .ok usable ∧ ∀ request,
        (request ≤ usable → s.StaysPut ptr request) ∧
        (usable < request → ∀ size, blockSize? request = some size → held < size ∧
          ∀ q s', s.step (.reallocate ptr request) = .ok (.ok (some q), s') →
            ∃ n, s'.heap.blockSize q = .ok n ∧ held < n) := by
  refine ⟨blockSize?_eq_toOption, fun n => blockSize?_eq_none_iff, fun n size hr => ?least,
    fun m n size hle hr => blockSize?_mono hle hr, fun n size hpos hmod hlt => ?adjoint,
    fun s hs ptr hp => ?live⟩
  case least =>
    obtain ⟨-, hmod, hroom, hlt⟩ := blockSize?_eq_some_iff.mp hr
    have hb := blockSize?_bounds hr
    exact ⟨⟨⟨hmod, hroom⟩, fun m hm => blockSize?_le hr hm.2 hm.1⟩, hb.1, hlt, hb.2⟩
  case adjoint =>
    have hmin : minBlock ≤ size := Nat.le_of_dvd hpos (Nat.dvd_of_mod_eq_zero hmod)
    exact blockSize?_le_iff hmin hmod hlt
  case live =>
    obtain ⟨cs, hr⟩ := hs
    obtain ⟨k, hf⟩ := hr.follows
    obtain ⟨x, held, hx, rfl⟩ := hf.site hp
    obtain ⟨t, ht, hused, rfl⟩ := mem_sites_iff.mp hx
    refine ⟨t.size, t.size - headerSize, hf.shows.blockSize_payload hx, hf.shows.usableSize_eq hx,
      fun request => ⟨fun hle => ?_, fun hlt size hsize => ?_⟩⟩
    · obtain ⟨size, hsize, hle⟩ := (hf.shows.tidy.serves_iff ht).mpr hle
      exact hf.staysPut ht hused hsize hle
    · have hmore : t.size < size := by
        by_contra hle
        exact Nat.not_le.mpr hlt ((hf.shows.tidy.serves_iff ht).mp ⟨size, hsize, Nat.not_lt.mp hle⟩)
      refine ⟨hmore, fun q s' hstep => ?_⟩
      obtain ⟨n, hn, hle⟩ := hf.blockSize_reallocate hp hsize hstep
      exact ⟨n, hn, hmore.trans_le hle⟩

theorem reachable_outgrown_chunk :
    ∃ s s' : Session Reserve, Run [.allocate 24] s ∧ s.StaysPut 448 24 ∧
      s.step (.reallocate 448 25) = .ok (.ok (some 480), s') ∧
      (∃ n, s'.heap.blockSize 480 = .ok n ∧ 32 < n) ∧
      blockSize? (wordLimit - 40) = some (wordLimit - 32) ∧
      IsLeast {m | m % alignment = 0 ∧ wordLimit - 40 + headerSize ≤ m} (wordLimit - 32) ∧
      (∃ a, blockSize? 24 = some a ∧ a ≤ 32) := by
  obtain ⟨s, hr, hf⟩ := exists_run_allocate
  obtain ⟨s', hstep, -, -⟩ := hf.advance (c := .reallocate 448 25) hr ⟨440, 32, by decide, rfl⟩
    (by decide) (by decide)
  obtain ⟨-, -, hleast, -, hadjoint, hlive⟩ := reachable_outgrown Reserve
  have hsite : (440, 32) ∈ Sketch.sites
      ((Sketch.empty (Reserve.full 4096) .checked).perform (.allocate 24)).2 true := by decide
  obtain ⟨held, usable, hheld, husable, hrequest⟩ := hlive s ⟨_, hr⟩ (440 + headerSize)
    (hf.tracks.owned hsite)
  obtain rfl : 32 = held := Except.ok.inj ((hf.shows.blockSize_payload hsite).symm.trans hheld)
  obtain rfl : 24 = usable := Except.ok.inj ((hf.shows.usableSize_eq hsite).symm.trans husable)
  have htop : blockSize? (wordLimit - 40) = some (wordLimit - 32) := by decide
  refine ⟨s, s', hr, (hrequest 24).1 (Nat.le_refl _), hstep, ?_, htop, (hleast _ _ htop).1,
    (hadjoint 24 32 (by decide) (by decide) (by decide)).mpr (by decide)⟩
  exact ((hrequest 25).2 (by decide) 64 (by decide)).2 480 s' hstep

end Session

end SegregatedFit

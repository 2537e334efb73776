import Yalnix.Footprint.Primitive

/-!
# What a stored `int` reads as

`storeInt` writes the four bytes of a word through the page table. They lie at
different offsets, so they do not overwrite each other even where two pages share
a frame, and the word is found again.
-/

namespace Yalnix

namespace Kernel

/-- The byte at address `a` of region 1, whatever its protection. -/
def byteAt (σ : Kernel) (a : Word) : Option Byte :=
  (σ.translate 0 a).map fun x => σ.phys x.1 x.2

/-- The `int` at address `a` of region 1, whatever its protection. -/
def wordAt (σ : Kernel) (a : Word) : Option Word :=
  (σ.byteAt a).bind fun b₀ => (σ.byteAt (a + 1)).bind fun b₁ =>
    (σ.byteAt (a + 1 + 1)).bind fun b₂ => (σ.byteAt (a + 1 + 1 + 1)).map fun b₃ =>
      bytesInt [b₀, b₁, b₂, b₃]

end Kernel

theorem bytesInt_intBytes (w : Word) : bytesInt (intBytes w) = w := by
  simp only [intBytes, bytesInt]
  apply BitVec.eq_of_getLsbD_eq
  intro i hi
  simp only [BitVec.getLsbD_append, BitVec.getLsbD_extractLsb']
  -- one case for each byte that bit `i` can be in
  split
  · simp_all
  split
  · simp_all
  split
  · have hbit : 16 + (i - 8 - 8) = i := by omega
    simp_all
  · have hbit : 24 + (i - 8 - 8 - 8) = i := by omega
    have hlast : i - 8 - 8 - 8 < 8 := by omega
    simp_all

theorem toNat_and_pageOffset (a : Word) : (a &&& pageOffset).toNat = a.toNat % 8192 := by
  rw [BitVec.toNat_and]
  exact Nat.and_two_pow_sub_one_eq_mod a.toNat 13

namespace Kernel

variable {σ σ' : Kernel} {a w : Word} {prot : ℕ} {x : ℕ × ℕ}

/-- What can be accessed with some rights is mapped. -/
theorem translate_zero (h : σ.translate prot a = some x) : σ.translate 0 a = some x := by
  unfold translate at h ⊢
  split at h
  · rename_i ha
    rw [if_pos ha]
    obtain ⟨q, hq, h⟩ := Option.bind_eq_some_iff.1 h
    dsimp only at h
    split at h
    · rename_i hv
      rw [hq]
      simpa [hv.1] using h
    · exact absurd h (by simp)
  · exact absurd h (by simp)

theorem translate_offset (h : σ.translate prot a = some x) : x.2 = a.toNat % 8192 := by
  unfold translate at h
  split at h
  · obtain ⟨q, -, h⟩ := Option.bind_eq_some_iff.1 h
    dsimp only at h
    split at h
    · obtain rfl := Option.some.inj h
      exact toNat_and_pageOffset a
    · exact absurd h (by simp)
  · exact absurd h (by simp)

theorem toNat_add_one_mod (a : Word) : (a + 1).toNat % 8192 = (a.toNat % 8192 + 1) % 8192 := by
  have hone : (1 : Word).toNat = 1 := rfl
  rw [BitVec.toNat_add, hone]
  omega

/-- A write of one byte, read back at another offset. -/
theorem update_byte_ne {phys : ℕ → ℕ → Byte} {f g i j : ℕ} (h : j ≠ i) (b : Byte) :
    Function.update phys f (Function.update (phys f) i b) g j = phys g j := by
  by_cases hg : g = f
  · subst hg
    simp [h]
  · simp [hg]

theorem update_byte_self (phys : ℕ → ℕ → Byte) (f i : ℕ) (b : Byte) :
    Function.update phys f (Function.update (phys f) i b) f i = b := by
  simp

/-- `*a = w` makes `*a` read as `w`. -/
theorem wordAt_storeInt (h : σ.storeInt a w = some σ') : σ'.wordAt a = some w := by
  obtain ⟨phys, hphys, rfl⟩ := Option.map_eq_some_iff.1 h
  obtain ⟨x₀, h₀, hphys⟩ := Option.bind_eq_some_iff.1 hphys
  obtain ⟨x₁, h₁, hphys⟩ := Option.bind_eq_some_iff.1 hphys
  obtain ⟨x₂, h₂, hphys⟩ := Option.bind_eq_some_iff.1 hphys
  obtain ⟨x₃, h₃, hphys⟩ := Option.bind_eq_some_iff.1 hphys
  obtain rfl := Option.some.inj hphys
  have hbyte : ∀ {σ₁ : Kernel} {c : Word} {y : ℕ × ℕ}, σ₁.translate protWrite c = some y →
      σ₁.byteAt c = some (σ₁.phys y.1 y.2) := by
    intro σ₁ c y hy
    rw [byteAt, translate_zero hy, Option.map_some]
  -- the four offsets follow each other, up to the end of a page
  have ho₀ := translate_offset h₀
  have ho₁ : x₁.2 = (x₀.2 + 1) % 8192 := by
    rw [translate_offset h₁, toNat_add_one_mod, ho₀]
  have ho₂ : x₂.2 = (x₁.2 + 1) % 8192 := by
    rw [translate_offset h₂, toNat_add_one_mod, translate_offset h₁]
  have ho₃ : x₃.2 = (x₂.2 + 1) % 8192 := by
    rw [translate_offset h₃, toNat_add_one_mod, translate_offset h₂]
  have hlt : x₀.2 < 8192 := by
    rw [ho₀]
    exact Nat.mod_lt _ (by decide)
  clear ho₀
  have h₀₁ : x₀.2 ≠ x₁.2 := by omega
  have h₀₂ : x₀.2 ≠ x₂.2 := by omega
  have h₀₃ : x₀.2 ≠ x₃.2 := by omega
  have h₁₂ : x₁.2 ≠ x₂.2 := by omega
  have h₁₃ : x₁.2 ≠ x₃.2 := by omega
  have h₂₃ : x₂.2 ≠ x₃.2 := by omega
  unfold wordAt
  rw [hbyte (by exact h₀), hbyte (by exact h₁), hbyte (by exact h₂), hbyte (by exact h₃)]
  dsimp only [Option.bind_some, Option.map_some]
  rw [update_byte_self, update_byte_ne h₂₃, update_byte_self, update_byte_ne h₁₃,
    update_byte_ne h₁₂, update_byte_self, update_byte_ne h₀₃, update_byte_ne h₀₂,
    update_byte_ne h₀₁, update_byte_self]
  exact congrArg some (bytesInt_intBytes w)

end Kernel

end Yalnix

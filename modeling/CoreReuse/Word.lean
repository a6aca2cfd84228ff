namespace CoreReuse

def wordLimit : Nat := 18446744073709551616

theorem wordLimit_pos : 0 < wordLimit := by decide

theorem toNat_lt_wordLimit (w : UInt64) : w.toNat < wordLimit := w.toNat_lt

end CoreReuse

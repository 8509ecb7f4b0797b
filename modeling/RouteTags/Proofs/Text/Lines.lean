import RouteTags.Proofs.Text.Encoding

namespace RouteTags.Text

end RouteTags.Text
